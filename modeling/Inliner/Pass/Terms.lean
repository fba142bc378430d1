import Inliner.Scope

/-!
# The walk over terms

Terms are simplified in a scope: variables are replaced by what they stand for, `*&c` becomes `c`,
calls are replaced where they can be inlined, and expression statements that do nothing are dropped.
How calls are treated is a parameter of the walk.

Operands are evaluated from left to right. Once an operand leaves something behind that must be
evaluated in its place, no statement can be emitted for a later operand, because it would run first.
-/

namespace Inliner

/-- How calls are treated. -/
structure CallTreatment where
  /-- The creation of an object by this constructor is treated like a call. -/
  isFactory : MethodRef → Bool
  /-- The expression that stands for a call with the given operands, if it can be inlined. -/
  inline : MethodRef → List Expr → ScopeM (Option Expr)

namespace Pass

/-- Simplifies one of several operands by `act`. The flag tells whether something is left to be evaluated
in the place of an earlier operand; the new flag is returned with the operand. -/
def operand (act : ScopeM Expr) (waiting : Bool) : ScopeM (Expr × Bool) := do
  let e ← if waiting && (← get).hasBuffer then ScopeM.withoutStatements act else act
  return (e, waiting || !e.isValue (← get).vars)

/-- What the target of a pointer is called: the target of a pointer to a cell is that cell. -/
def target : Expr → Cell
  | .addressOf cell => cell
  | pointer => .deref pointer

mutual

/-- Simplifies a cell that is stored into, read or pointed at. -/
def cell (calls : CallTreatment) : Cell → Bool → ScopeM (Cell × Bool)
  | .var id, waiting => do
    return (← ScopeM.ofExcept ((← get).resolveCell (.var id)), waiting)
  | .field object member, waiting => do
    let (object, waiting) ← operand (expr calls object) waiting
    return (.field object member, waiting)
  | .static member, waiting => return (.static member, waiting)
  | .element array index, waiting => do
    let (array, waiting) ← operand (expr calls array) waiting
    let (index, waiting) ← operand (expr calls index) waiting
    return (.element array index, waiting)
  | .deref pointer, waiting => do
    let (pointer, waiting) ← operand (expr calls pointer) waiting
    return (target pointer, waiting)

/-- Simplifies an expression. -/
def expr (calls : CallTreatment) : Expr → ScopeM Expr
  | .const value => return .const value
  | .read (.var id) => return (← get).readVar id
  | .read c => return .read (← cell calls c false).1
  | .addressOf c => return .addressOf (← cell calls c false).1
  | .unary op e => return .unary op (← expr calls e)
  | .binary op left right => do
    let (left, waiting) ← operand (expr calls left) false
    let (right, _) ← operand (expr calls right) waiting
    return .binary op left right
  | .logical op left right => do
    let left ← expr calls left
    let right ← ScopeM.withoutStatements (expr calls right)
    return .logical op left right
  | .conditional cond onTrue onFalse => do
    let cond ← expr calls cond
    let onTrue ← ScopeM.withoutStatements (expr calls onTrue)
    let onFalse ← ScopeM.withoutStatements (expr calls onFalse)
    return .conditional cond onTrue onFalse
  | .call method args => do
    let args ← operands calls args false
    return (← calls.inline method args).getD (.call method args)
  | .callOn method receiver args => do
    let (receiver, waiting) ← operand (expr calls receiver) false
    let args ← operands calls args waiting
    return (← calls.inline method (receiver :: args)).getD (.callOn method receiver args)
  | .construct method args => do
    let args ← operands calls args false
    if calls.isFactory method then
      return (← calls.inline method args).getD (.construct method args)
    else
      return .construct method args
  | .marshalOut e => return .marshalOut (← expr calls e)
  | .marshalIn e => return .marshalIn (← expr calls e)

/-- Simplifies operands from left to right. -/
def operands (calls : CallTreatment) : List Expr → Bool → ScopeM (List Expr)
  | [], _ => return []
  | e :: rest, waiting => do
    let (e, waiting) ← operand (expr calls e) waiting
    let rest ← operands calls rest waiting
    return e :: rest

end

mutual

/-- Simplifies a statement and emits the result, if anything is left of it. -/
def stmt (calls : CallTreatment) : Stmt → ScopeM Unit
  | .eval e => do
    let e ← expr calls e
    let effects ← ScopeM.ofExcept (e.effects (← get).vars)
    if !effects.isPure then ScopeM.emit (.eval e)
  | .assign c value => do
    let (c, waiting) ← cell calls c false
    let (value, _) ← operand (expr calls value) waiting
    ScopeM.emit (.assign c value)
  | .ret none => ScopeM.emit (.ret none)
  | .ret (some e) => do
    let e ← expr calls e
    ScopeM.emit (.ret (some e))
  | .raise e => do
    let e ← expr calls e
    ScopeM.emit (.raise e)
  | .branch cond onTrue onFalse => do
    let cond ← expr calls cond
    let onTrue ← ScopeM.withFreshStatements do
      block calls onTrue
      ScopeM.takeStatements
    let onFalse ← ScopeM.withFreshStatements do
      block calls onFalse
      ScopeM.takeStatements
    ScopeM.emit (.branch cond onTrue onFalse)

/-- Simplifies the statements of a block in order. -/
def block (calls : CallTreatment) : List Stmt → ScopeM Unit
  | [] => return ()
  | s :: rest => do
    stmt calls s
    block calls rest

end

end Pass

end Inliner
