import Inliner.Effects
import Inliner.VarTable

/-!
# The effects of terms

Evaluating a term performs a sequence of *steps*, one for each access, operation or call in it, in
evaluation order. Each step has effects, or is at fault because it names a variable that is not
declared. The effects of the term are the join of those of its steps.

A call is a step that may do anything to the heap, may raise, and may write through every pointer
that it is given.
-/

namespace Inliner

/-! ### Targets of pointers -/

/-- Points exactly at a slot of the frame. -/
def PointsTo.toSlot (f : Frame) (slot : Slot) : Except Fault PointsTo :=
  match PointsTo.toSlot? f slot with
  | some p => .ok p
  | none => .error .outOfRange

/-- The join of two sets of pointer targets. -/
def PointsTo.joined (p q : PointsTo) : Except Fault PointsTo :=
  match Domain.join p q with
  | some r => .ok r
  | none => .error .noUpperBound

/-- What the value of a declared variable may point at. A pointer that came in as an argument points
outside the frame, which is summarised as the heap; a local may hold any pointer. -/
def Variable.pointsTo (f : Frame) (v : Variable) : PointsTo :=
  if v.type.isPointer then
    match v.storage with
    | .argument => .toHeap f
    | .localVar => .top f
  else .bottom f

mutual

/-- What a pointer to the cell points at. -/
def Cell.addressPointsTo (vars : VarTable) : Cell → Except Fault PointsTo
  | .var id => do PointsTo.toSlot vars.frame (← vars.slot id)
  | .field _ _ => .ok (.toHeap vars.frame)
  | .static _ => .ok (.toHeap vars.frame)
  | .element _ _ => .ok (.toHeap vars.frame)
  | .deref pointer => pointer.pointsTo vars

/-- What the value of the expression may point at. -/
def Expr.pointsTo (vars : VarTable) : Expr → Except Fault PointsTo
  | .addressOf cell => cell.addressPointsTo vars
  | .read (.var id) => (vars.get id).map (Variable.pointsTo vars.frame)
  | .conditional _ onTrue onFalse => do
    let p ← onTrue.pointsTo vars
    let q ← onFalse.pointsTo vars
    p.joined q
  | .call _ _ => .ok (.toHeap vars.frame)
  | .callOn _ _ _ => .ok (.toHeap vars.frame)
  | .marshalIn _ => .ok (.toHeap vars.frame)
  | .marshalOut value => value.pointsTo vars
  | .const _ => .ok (.bottom vars.frame)
  | .read _ => .ok (.bottom vars.frame)
  | .unary _ _ => .ok (.bottom vars.frame)
  | .binary _ _ _ => .ok (.bottom vars.frame)
  | .logical _ _ _ => .ok (.bottom vars.frame)
  | .construct _ _ => .ok (.bottom vars.frame)

end

/-- The expression has no effect to speak of and may be duplicated and moved freely: it is a constant,
a pointer to a variable, or the contents of a variable to which no pointer exists. -/
def Expr.isValue (vars : VarTable) : Expr → Bool
  | .const _ => true
  | .addressOf (.var _) => true
  | .read (.var id) => (vars.get? id).any fun v => !v.flags.addressTaken
  | _ => false

/-! ### Steps -/

/-- The effects of one step, or its fault. -/
abbrev Step : Type :=
  Except Fault Effects

/-- The steps of an operation that is not looked into: a write through every pointer among its
operands, then anything on the heap. -/
def Expr.unknownSteps (vars : VarTable) (operands : List Expr) : List Step :=
  operands.map (fun e => (e.pointsTo vars).map PointsTo.writeEffects) ++
    [.ok (.onHeap vars.frame .write true)]

/-- The access to a cell, its operands having been evaluated. -/
def Cell.accessSteps (vars : VarTable) (a : Access) : Cell → List Step
  | .var id => [(vars.slot id).map fun slot => .onSlot vars.frame slot a]
  | .field _ _ => [.ok (.onHeap vars.frame a true)]
  | .element _ _ => [.ok (.onHeap vars.frame a true)]
  | .static _ => [.ok (.onHeap vars.frame a false)]
  | .deref pointer =>
    [(pointer.pointsTo vars).map fun p =>
      match a with
      | .write => p.writeEffects
      | _ => p.readEffects]

/-- The operation of a node, its operands having been evaluated. -/
def Expr.ownSteps (vars : VarTable) : Expr → List Step
  | .read cell => cell.accessSteps vars .read
  | .binary op _ _ => if op.mayThrow then [.ok (.raising vars.frame)] else []
  | .call _ args => Expr.unknownSteps vars args
  | .callOn _ receiver args => Expr.unknownSteps vars (receiver :: args)
  | .construct _ args => Expr.unknownSteps vars args
  | .marshalOut value => Expr.unknownSteps vars [value]
  | .marshalIn value => Expr.unknownSteps vars [value]
  | .const _ => []
  | .addressOf _ => []
  | .unary _ _ => []
  | .logical _ _ _ => []
  | .conditional _ _ _ => []

mutual

/-- The evaluation of the operands of a cell. -/
def Cell.operandSteps (vars : VarTable) : Cell → List Step
  | .var _ => []
  | .field object _ => object.steps vars
  | .static _ => []
  | .element array index => array.steps vars ++ index.steps vars
  | .deref pointer => pointer.steps vars

/-- The evaluation of an expression: its operands from left to right, then its own operation. Parts
that are evaluated conditionally are included. -/
def Expr.steps (vars : VarTable) : Expr → List Step
  | .const _ => []
  | .read cell => cell.operandSteps vars ++ cell.accessSteps vars .read
  | .addressOf cell => cell.operandSteps vars
  | .unary _ operand => operand.steps vars
  | .binary op left right =>
    left.steps vars ++ right.steps vars ++ Expr.ownSteps vars (.binary op left right)
  | .logical _ left right => left.steps vars ++ right.steps vars
  | .conditional cond onTrue onFalse =>
    cond.steps vars ++ onTrue.steps vars ++ onFalse.steps vars
  | .call _ args => Expr.allSteps vars args ++ Expr.unknownSteps vars args
  | .callOn _ receiver args =>
    receiver.steps vars ++ Expr.allSteps vars args ++ Expr.unknownSteps vars (receiver :: args)
  | .construct _ args => Expr.allSteps vars args ++ Expr.unknownSteps vars args
  | .marshalOut value => value.steps vars ++ Expr.unknownSteps vars [value]
  | .marshalIn value => value.steps vars ++ Expr.unknownSteps vars [value]

/-- The evaluation of several expressions from left to right. -/
def Expr.allSteps (vars : VarTable) : List Expr → List Step
  | [] => []
  | e :: rest => e.steps vars ++ Expr.allSteps vars rest

end

/-- The evaluation of the operands of a cell, then the access to it. -/
def Cell.steps (vars : VarTable) (a : Access) (cell : Cell) : List Step :=
  cell.operandSteps vars ++ cell.accessSteps vars a

mutual

/-- The execution of a statement. The value of an assignment counts before its target. -/
def Stmt.steps (vars : VarTable) : Stmt → List Step
  | .eval value => value.steps vars
  | .assign target value => value.steps vars ++ target.steps vars .write
  | .ret none => []
  | .ret (some value) => value.steps vars
  | .raise exception => exception.steps vars ++ [.ok (.raising vars.frame)]
  | .branch cond onTrue onFalse =>
    cond.steps vars ++ Stmt.blockSteps vars onTrue ++ Stmt.blockSteps vars onFalse

/-- The execution of the statements of a block. -/
def Stmt.blockSteps (vars : VarTable) : List Stmt → List Step
  | [] => []
  | s :: rest => s.steps vars ++ Stmt.blockSteps vars rest

end

/-! ### Accumulation -/

/-- Joins steps into `acc` up to the first fault. What was joined before the fault stays. -/
def Effects.accumulate (acc : Effects) : List Step → Effects × Option Fault
  | [] => (acc, none)
  | .ok e :: rest => (acc.absorb e).accumulate rest
  | .error fault :: _ => (acc, some fault)

/-- The joint effects of some steps in a frame. -/
def Effects.ofSteps (f : Frame) (steps : List Step) : Except Fault Effects :=
  match (Effects.bottom f).accumulate steps with
  | (effects, none) => .ok effects
  | (_, some fault) => .error fault

/-- The effects of evaluating an expression. -/
def Expr.effects (vars : VarTable) (e : Expr) : Except Fault Effects :=
  Effects.ofSteps vars.frame (e.steps vars)

/-- The effects of executing a statement. -/
def Stmt.effects (vars : VarTable) (s : Stmt) : Except Fault Effects :=
  Effects.ofSteps vars.frame (s.steps vars)

end Inliner
