import Inliner.Term.Usage
import Inliner.VarTable

/-!
# Method bodies

A method with its variables and statements. The flags of the variables can be derived from the
statements: a variable that is read somewhere is flagged as read, and one to which a pointer is taken
as having its address taken.
-/

namespace Inliner

/-- The body of a method. -/
structure MethodBody where
  method : MethodRef
  /-- The method is implemented elsewhere, so values have to be marshalled on the way in and out. -/
  isImport : Bool
  vars : VarTable
  stmts : List Stmt

namespace MethodBody

/-- The formal parameters in order, the receiver of an instance method first. -/
def parameters (b : MethodBody) : List VarId :=
  b.vars.arguments

/-- The number of statements, counting the nested ones. -/
def size (b : MethodBody) : Nat :=
  Stmt.blockSize b.stmts

/-- The references made by the body. -/
def usage (b : MethodBody) : Usage Int32 :=
  Stmt.blockUsage b.stmts

/-- The value that the body returns, if it does nothing else. -/
def singleReturn? (b : MethodBody) : Option Expr :=
  match b.stmts with
  | [.ret (some e)] => some e
  | _ => none

/-- The statements before a trailing return, and the value returned there. There is no such split if
the method can be left earlier. -/
def splitReturn? (b : MethodBody) : Option (List Stmt × Option Expr) :=
  let (leading, value) :=
    match b.stmts.getLast? with
    | some (.ret value) => (b.stmts.dropLast, value)
    | _ => (b.stmts, none)
  if Stmt.blockContainsReturn leading then none else some (leading, value)

end MethodBody

/-! ### Flags derived from statements -/

/-- The flag of a variable that is read. -/
def Flags.ofRead : Flags :=
  { read := true }

/-- The flag of a variable to which a pointer is taken. -/
def Flags.ofAddress : Flags :=
  { addressTaken := true }

/-- A use of a variable and the flags that it raises. -/
abbrev VarUse : Type :=
  VarId × Flags

/-- The use of the cell itself, if it is a variable. -/
def Cell.directUses (flags : Flags) : Cell → List VarUse
  | .var id => [(id, flags)]
  | _ => []

mutual

/-- The uses of variables in the operands of a cell. -/
def Cell.operandUses : Cell → List VarUse
  | .var _ => []
  | .field object _ => object.uses
  | .static _ => []
  | .element array index => array.uses ++ index.uses
  | .deref pointer => pointer.uses

/-- The uses of variables in an expression. -/
def Expr.uses : Expr → List VarUse
  | .const _ => []
  | .read cell => cell.directUses .ofRead ++ cell.operandUses
  | .addressOf cell => cell.directUses .ofAddress ++ cell.operandUses
  | .unary _ operand => operand.uses
  | .binary _ left right => left.uses ++ right.uses
  | .logical _ left right => left.uses ++ right.uses
  | .conditional cond onTrue onFalse => cond.uses ++ onTrue.uses ++ onFalse.uses
  | .call _ args => Expr.allUses args
  | .callOn _ receiver args => receiver.uses ++ Expr.allUses args
  | .construct _ args => Expr.allUses args
  | .marshalOut value => value.uses
  | .marshalIn value => value.uses

/-- The uses of variables in several expressions. -/
def Expr.allUses : List Expr → List VarUse
  | [] => []
  | e :: rest => e.uses ++ Expr.allUses rest

end

mutual

/-- The uses of variables in a statement. -/
def Stmt.uses : Stmt → List VarUse
  | .eval value => value.uses
  | .assign target value => target.operandUses ++ value.uses
  | .ret none => []
  | .ret (some value) => value.uses
  | .raise exception => exception.uses
  | .branch cond onTrue onFalse => cond.uses ++ Stmt.blockUses onTrue ++ Stmt.blockUses onFalse

/-- The uses of variables in a block. -/
def Stmt.blockUses : List Stmt → List VarUse
  | [] => []
  | s :: rest => s.uses ++ Stmt.blockUses rest

end

/-- The table with the flags of the listed uses raised. Uses of variables that are not declared are
left for the analyses to reject. -/
def VarTable.markUses (t : VarTable) (uses : List VarUse) : VarTable :=
  uses.foldl (fun t (id, flags) => (t.mark id flags).toOption.getD t) t

/-- The body with the given declarations, flagged by the uses in its statements. -/
def MethodBody.build (method : MethodRef) (isImport : Bool) (vars : VarTable)
    (stmts : List Stmt) : MethodBody :=
  ⟨method, isImport, vars.markUses (Stmt.blockUses stmts), stmts⟩

end Inliner
