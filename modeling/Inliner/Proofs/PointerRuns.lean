import Inliner.Proofs.Commutation
import Inliner.Proofs.Evaluation
import Mathlib.Logic.Function.Basic

/-!
# Runs with pointers into the frame

Statements are run over a frame whose slots may hold pointers to slots of the same frame. A pointer
comes from taking the address of a variable; `*p` accesses the slot that `p` points at. All other
values are foreign: data, and pointers to places outside the frame. What happens outside the frame,
and what operators compute, is left to the `Surroundings`. An operation that is not looked into may
change the heap and the slots that its operands point at, and may return anything.

A run leaves a trace of the nodes that it evaluates, the values that it stores and the statements
that it executes. What is required of a run is required of the events in its trace: a pointer into
the frame may only be stored in a variable of a pointer type (`keepsToByRef`), not in a parameter
(`sparesParameters`); no pointer to a variable of a pointer type is made (`avoidsIndirection`); and
what is not looked into returns no pointer into the frame (`returnsForeign`).
-/

namespace Inliner

/-! ## Events -/

/-- A value: one that does not point into the frame, or a pointer to one of its slots. -/
inductive Content (F : Type) where
  | foreign (f : F)
  | pointer (q : Slot)
  deriving DecidableEq

/-- The contents of the slots of a frame. -/
abbrev Contents (F : Type) : Type :=
  Slot → Content F

/-- Something that happens in a run. -/
inductive RunEvent (F : Type) where
  /-- A node was evaluated; the values of its operands, as far as they were evaluated, and its
  own. -/
  | evaluated (e : Expr) (operands : List (Content F)) (v : Content F)
  /-- A value was stored in a slot. -/
  | stored (q : Slot) (v : Content F)
  /-- A value was stored outside the frame. -/
  | storedOutside (v : Content F)
  /-- A statement was executed, to its end or until something was raised. -/
  | executed (s : Stmt) (before after : Contents F)

/-- The slot is one of a variable of a pointer type. -/
def VarTable.isByRef (vars : VarTable) (q : Slot) : Bool :=
  vars.vars.zipIdx.any fun (v, i) => v.type.isPointer && vars.slotOf ⟨i⟩ v == q

namespace RunEvent

variable {F : Type}

/-- Pointers into the frame are stored only in variables of pointer types. -/
def keepsToByRef (vars : VarTable) : RunEvent F → Bool
  | .stored q (.pointer _) => vars.isByRef q
  | .storedOutside (.pointer _) => false
  | _ => true

/-- Pointers into the frame are not stored in parameters. -/
def sparesParameters : RunEvent F → Bool
  | .stored (.argument _) (.pointer _) => false
  | _ => true

/-- The address of a variable of a pointer type is not taken. -/
def avoidsIndirection (vars : VarTable) : RunEvent F → Bool
  | .evaluated (.addressOf (.var id)) _ _ => !(vars.get? id).any fun v => v.type.isPointer
  | _ => true

/-- What is not looked into returns no pointer into the frame. Only a value that is made ready for a
foreign callee may be the pointer that was to be made ready. -/
def returnsForeign : RunEvent F → Bool
  | .evaluated (.call _ _) _ (.pointer _) => false
  | .evaluated (.callOn _ _ _) _ (.pointer _) => false
  | .evaluated (.construct _ _) _ (.pointer _) => false
  | .evaluated (.marshalIn _) _ (.pointer _) => false
  | .evaluated (.marshalOut _) [.pointer r] (.pointer q) => r == q
  | .evaluated (.marshalOut _) _ (.pointer _) => false
  | _ => true

end RunEvent

/-! ## Steps of a run -/

/-- A step of a run, over the contents of the frame and the heap: the events in it, and its result.
The state that it leaves is known also when something is raised. -/
def RunM (F H X A : Type) : Type :=
  Store (Content F) H → List (RunEvent F) × EStateM.Result X (Store (Content F) H) A

namespace RunM

variable {F H X A B : Type}

/-- What is done after a step that returned `r`, given what happened in it. -/
def andThen (p : List (RunEvent F) × EStateM.Result X (Store (Content F) H) A)
    (k : A → RunM F H X B) : List (RunEvent F) × EStateM.Result X (Store (Content F) H) B :=
  match p with
  | (events, .ok a s) => (events ++ (k a s).1, (k a s).2)
  | (events, .error x s) => (events, .error x s)

instance : Monad (RunM F H X) where
  pure a := fun s => ([], .ok a s)
  bind f k := fun s => andThen (f s) k

lemma bind_apply (f : RunM F H X A) (k : A → RunM F H X B) (s : Store (Content F) H) :
    (f >>= k) s = andThen (f s) k := rfl

lemma andThen_pure (p : List (RunEvent F) × EStateM.Result X (Store (Content F) H) A) :
    andThen p pure = p := by
  obtain ⟨events, a | x⟩ := p
  · exact congrArg (Prod.mk · _) (List.append_nil events)
  · rfl

lemma andThen_bind {C : Type} (p : List (RunEvent F) × EStateM.Result X (Store (Content F) H) A)
    (k : A → RunM F H X B) (l : B → RunM F H X C) :
    andThen (andThen p k) l = andThen p fun a => k a >>= l := by
  obtain ⟨events, ⟨a, s⟩ | x⟩ := p
  · change andThen (events ++ (k a s).1, (k a s).2) l =
      (events ++ (andThen (k a s) l).1, (andThen (k a s) l).2)
    obtain ⟨events', b | x⟩ := k a s <;> simp [andThen]
  · rfl

instance : LawfulMonad (RunM F H X) :=
  LawfulMonad.mk' (RunM F H X) (fun f => funext fun s => andThen_pure (f s)) (fun _ _ => rfl)
    (fun f k l => funext fun s => andThen_bind (f s) k l)

/-- Raises an exception. -/
def raise (x : X) : RunM F H X A := fun s =>
  ([], .error x s)

/-- An event happens. -/
def note (ev : RunEvent F) : RunM F H X Unit := fun s =>
  ([ev], .ok () s)

/-- Looks at the heap, and may raise. -/
def outside (f : H → Except X A) : RunM F H X A := fun s =>
  match f s.heap with
  | .ok a => ([], .ok a s)
  | .error x => ([], .error x s)

/-- Changes the heap, and may raise. -/
def setHeap (f : H → Except X H) : RunM F H X Unit := fun s =>
  match f s.heap with
  | .ok heap => ([], .ok () { s with heap })
  | .error x => ([], .error x s)

/-- Stores a value in a slot. -/
def setSlot (q : Slot) (v : Content F) : RunM F H X Unit := fun s =>
  ([.stored q v], .ok () { s with slot := Function.update s.slot q v })

/-- The contents of a slot. -/
def getSlot (q : Slot) : RunM F H X (Content F) := fun s =>
  ([], .ok (s.slot q) s)

/-- Notes the value of a node. -/
def noted (e : Expr) (operands : List (Content F)) (act : RunM F H X (Content F)) :
    RunM F H X (Content F) := do
  let v ← act
  note (.evaluated e operands v)
  return v

/-- Notes the execution of a statement, also if something is raised in it. -/
def notedStmt (stmt : Stmt) (act : RunM F H X A) : RunM F H X A := fun s =>
  ((act s).1 ++ [.executed stmt s.slot (final (act s).2).slot], (act s).2)

end RunM

/-! ## Runs -/

/-- What is outside the frame. Foreign values are of type `F`, heaps of type `H`, exceptions of type
`X`. -/
structure Surroundings (F H X : Type) where
  /-- The value of a constant or of an operator. -/
  compute : Expr → List (Content F) → H → Except X F
  /-- The value counts as true. -/
  truth : Content F → Bool
  /-- A pointer to a cell outside the frame. -/
  address : Cell → List (Content F) → H → Except X F
  /-- The contents of a cell outside the frame. -/
  load : Cell → List (Content F) → H → Except X F
  /-- Stores into a cell outside the frame. -/
  store : Cell → List (Content F) → Content F → H → Except X H
  /-- An operation that is not looked into: what it returns or raises, what it would leave in the
  slots, and the heap after it. -/
  unknown : Expr → List (Content F) → Store (Content F) H →
    Except X (Content F) × Store (Content F) H
  /-- What is raised with a value. -/
  exception : Content F → X
  /-- What is raised where a variable is not declared. -/
  undeclared : VarId → X

namespace Surroundings

variable {F H X : Type} (w : Surroundings F H X) (vars : VarTable)

/-- The slot of a variable. -/
def place (id : VarId) : RunM F H X Slot :=
  match vars.get? id with
  | some v => pure (vars.slotOf id v)
  | none => RunM.raise (w.undeclared id)

/-- Stores what an operation left in the slots that its operands point at. -/
def writePointees (after : Contents F) : List (Content F) → RunM F H X Unit
  | [] => pure ()
  | .pointer q :: rest => do
    RunM.setSlot q (after q)
    writePointees after rest
  | .foreign _ :: rest => writePointees after rest

/-- Does an operation that is not looked into. -/
def unknownOperation (e : Expr) (operands : List (Content F)) : RunM F H X (Content F) := fun s =>
  let (result, after) := w.unknown e operands s
  (do
    RunM.setHeap fun _ => .ok after.heap
    writePointees after.slot operands
    match result with
    | .ok v => return v
    | .error x => RunM.raise x : RunM F H X (Content F)) s

/-- Reads a cell that is no variable, given the values of its operands. -/
def loadCell : Cell → List (Content F) → RunM F H X (Content F)
  | .deref _, [.pointer q] => RunM.getSlot q
  | cell, operands => do
    return .foreign (← RunM.outside (w.load cell operands))

/-- Takes the address of a cell, given the values of its operands. -/
def addressCell : Cell → List (Content F) → RunM F H X (Content F)
  | .var id, _ => do
    return .pointer (← w.place vars id)
  | .deref _, [v] => return v
  | cell, operands => do
    return .foreign (← RunM.outside (w.address cell operands))

/-- Stores into a cell that is no variable, given the values of its operands. -/
def storeCell : Cell → List (Content F) → Content F → RunM F H X Unit
  | .deref _, [.pointer q], v => RunM.setSlot q v
  | cell, operands, v => do
    RunM.note (.storedOutside v)
    RunM.setHeap (w.store cell operands v)

/-- The operation of a node, given the values of the parts that were evaluated. -/
def operation : Expr → List (Content F) → RunM F H X (Content F)
  | .read cell, operands => w.loadCell cell operands
  | .addressOf cell, operands => w.addressCell vars cell operands
  | .conditional _ _ _, [_, v] => return v
  | .call method args, operands => w.unknownOperation (.call method args) operands
  | .callOn method receiver args, operands =>
    w.unknownOperation (.callOn method receiver args) operands
  | .construct method args, operands => w.unknownOperation (.construct method args) operands
  | .marshalOut value, operands => w.unknownOperation (.marshalOut value) operands
  | .marshalIn value, operands => w.unknownOperation (.marshalIn value) operands
  | e, operands => do
    return .foreign (← RunM.outside (w.compute e operands))

/-- The meaning of expressions. Every node that is evaluated is noted. -/
def evaluator : Evaluator (RunM F H X) (Content F) where
  var id := RunM.noted (.readVar id) [] do
    RunM.getSlot (← w.place vars id)
  op e operands := RunM.noted e operands (w.operation vars e operands)
  truth := w.truth

mutual

/-- Executes a statement, and notes that. The result says whether it leaves the method. -/
def exec : Stmt → RunM F H X Bool
  | .eval e => RunM.notedStmt (.eval e) do
    let _ ← (w.evaluator vars).eval e
    return false
  | .assign (.var id) e => RunM.notedStmt (.assign (.var id) e) do
    let v ← (w.evaluator vars).eval e
    RunM.setSlot (← w.place vars id) v
    return false
  | .assign cell e => RunM.notedStmt (.assign cell e) do
    let operands ← (w.evaluator vars).evalAll cell.parts
    let v ← (w.evaluator vars).eval e
    w.storeCell cell operands v
    return false
  | .ret none => RunM.notedStmt (.ret none) (return true)
  | .ret (some e) => RunM.notedStmt (.ret (some e)) do
    let _ ← (w.evaluator vars).eval e
    return true
  | .raise e => RunM.notedStmt (.raise e) do
    let v ← (w.evaluator vars).eval e
    RunM.raise (w.exception v)
  | .branch cond onTrue onFalse => RunM.notedStmt (.branch cond onTrue onFalse) do
    let v ← (w.evaluator vars).eval cond
    if w.truth v then execBlock onTrue else execBlock onFalse

/-- Executes the statements of a block until one leaves the method. -/
def execBlock : List Stmt → RunM F H X Bool
  | [] => return false
  | s :: rest => do
    if ← exec s then return true else execBlock rest

end

/-- What happens in a run of some statements, from a frame without pointers into it. -/
def trace (stmts : List Stmt) (init : Slot → F) (heap : H) : List (RunEvent F) :=
  (w.execBlock vars stmts ⟨fun q => .foreign (init q), heap⟩).1

end Surroundings

end Inliner
