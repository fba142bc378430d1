import Inliner.ArgumentTracker

/-!
# Substitution of arguments

The walk through the expression that a callee returns, in evaluation order. It replaces the parameters
by the arguments of the call, tells the tracker about each occurrence, and adds up the effects of the
callee's own work, to which the arguments do not count.
-/

namespace Inliner

namespace Substitution

/-- What is known at a point of the walk. -/
structure State where
  tracker : ArgumentTracker
  /-- The effects of the callee's own work so far. -/
  done : Effects

/-- A step of the walk. -/
abbrev Walk : Type → Type :=
  StateT State (Except Fault)

/-- The argument for an occurrence of a parameter. -/
def argument (args : List Expr) (id : VarId) (unconditional : Bool) : Walk Expr := do
  match (← get).tracker.position? id with
  | none => throw (.malformed (.undeclaredRead id) none)
  | some i =>
    modify fun s => { s with tracker := s.tracker.visit i s.done unconditional }
    match args[i]? with
    | some arg => return arg
    | none => throw .outOfRange

/-- Accounts for the operation of a node whose operands have been replaced. -/
def own (vars : VarTable) (node : Expr) : Walk Expr := do
  let effects ← Effects.ofSteps vars.frame (node.ownSteps vars)
  modify fun s => { s with done := s.done.absorb effects }
  return node

mutual

/-- Replaces the parameters in the operands of a cell. A parameter itself has no storage here. -/
def cell (vars : VarTable) (args : List Expr) : Cell → Bool → Walk Cell
  | .var id, _ => throw (.malformed (.parameterAsStorage id) none)
  | .field object member, unconditional => do
    return .field (← expr vars args object unconditional) member
  | .static member, _ => return .static member
  | .element array index, unconditional => do
    let array ← expr vars args array unconditional
    let index ← expr vars args index unconditional
    return .element array index
  | .deref pointer, unconditional => do
    return .deref (← expr vars args pointer unconditional)

/-- Replaces the parameters in an expression; `unconditional` tells that it is evaluated on every
path. -/
def expr (vars : VarTable) (args : List Expr) : Expr → Bool → Walk Expr
  | .read (.var id), unconditional => argument args id unconditional
  | .const value, _ => own vars (.const value)
  | .read c, unconditional => do
    own vars (.read (← cell vars args c unconditional))
  | .addressOf c, unconditional => do
    own vars (.addressOf (← cell vars args c unconditional))
  | .unary op operand, unconditional => do
    own vars (.unary op (← expr vars args operand unconditional))
  | .binary op left right, unconditional => do
    let left ← expr vars args left unconditional
    let right ← expr vars args right unconditional
    own vars (.binary op left right)
  | .logical op left right, unconditional => do
    let left ← expr vars args left unconditional
    let right ← expr vars args right false
    own vars (.logical op left right)
  | .conditional cond onTrue onFalse, unconditional => do
    let cond ← expr vars args cond unconditional
    let onTrue ← expr vars args onTrue false
    let onFalse ← expr vars args onFalse false
    own vars (.conditional cond onTrue onFalse)
  | .call method operands, unconditional => do
    own vars (.call method (← exprs vars args operands unconditional))
  | .callOn method receiver operands, unconditional => do
    let receiver ← expr vars args receiver unconditional
    let operands ← exprs vars args operands unconditional
    own vars (.callOn method receiver operands)
  | .construct method operands, unconditional => do
    own vars (.construct method (← exprs vars args operands unconditional))
  | .marshalOut value, unconditional => do
    own vars (.marshalOut (← expr vars args value unconditional))
  | .marshalIn value, unconditional => do
    own vars (.marshalIn (← expr vars args value unconditional))

/-- Replaces the parameters in several expressions. -/
def exprs (vars : VarTable) (args : List Expr) : List Expr → Bool → Walk (List Expr)
  | [], _ => return []
  | e :: rest, unconditional => do
    let e ← expr vars args e unconditional
    let rest ← exprs vars args rest unconditional
    return e :: rest

end

/-- The walk through the expression `e` that a callee with the given parameters returns. -/
def run (vars : VarTable) (parameters : List VarId) (args : List Expr) (e : Expr) :
    Except Fault (Expr × State) := do
  let tracker ← ArgumentTracker.start vars parameters args
  (expr vars args e true).run ⟨tracker, .bottom vars.frame⟩

/-- The expression that may stand for the call, if the arguments can be moved to where the parameters
occur. -/
def inlined? (vars : VarTable) (parameters : List VarId) (args : List Expr) (e : Expr) :
    Except Fault (Option Expr) := do
  let (result, s) ← run vars parameters args e
  return if s.tracker.finish.isOk then some result else none

end Substitution

end Inliner
