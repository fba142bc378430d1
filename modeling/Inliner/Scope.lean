import Inliner.Event
import Inliner.Term.Effects

/-!
# Scopes

While a method is simplified, a scope holds what variables stand for, the statements emitted so far
and their effects. Where only an expression can be built, there is no statement buffer, and emitting
a statement is a fault.

Scopes nest: a nested scope may have its own bindings, buffer or effects. The variables of the method
being simplified and the event log are common to all scopes, so variables declared in a nested scope
stay declared.
-/

namespace Inliner

/-- The state of simplifying a method. -/
structure Scope where
  /-- The method that is simplified. -/
  method : MethodRef
  /-- What variables stand for; a variable without an entry stands for itself. -/
  bindings : KeyMap VarId Expr
  /-- The statements emitted, if statements can be emitted. -/
  buffer : Option (List Stmt)
  /-- The effects of what was emitted. -/
  effects : Effects
  /-- The variables of the method. -/
  vars : VarTable
  log : EventLog

/-- A step of work in a scope. The scope that it leaves is known also when it is at fault. -/
abbrev ScopeM : Type → Type :=
  EStateM Fault Scope

namespace Scope

/-- The outermost scope of a method with the given variables: nothing is bound, and no statement can be
emitted. -/
def root (method : MethodRef) (vars : VarTable) (log : EventLog) : Scope :=
  ⟨method, ∅, none, .bottom vars.frame, vars, log⟩

/-- Statements can be emitted. -/
def hasBuffer (s : Scope) : Bool :=
  s.buffer.isSome

/-! ### Bindings -/

/-- What a variable stands for when it is read. -/
def readVar (s : Scope) (id : VarId) : Expr :=
  (s.bindings.get? id).getD (.readVar id)

/-- The cell that a cell stands for when it is stored into or pointed at. -/
def resolveCell (s : Scope) : Cell → Except Fault Cell
  | .var id =>
    match s.bindings.get? id with
    | none => .ok (.var id)
    | some (.read target) => .ok target
    | some other => .error (.malformed (.boundToNonStorage id other) none)
  | cell => .ok cell

/-- The variable that a variable stands for. -/
def resolveId (s : Scope) (id : VarId) : Except Fault VarId :=
  match s.bindings.get? id with
  | none => .ok id
  | some e =>
    match e.variableRead? with
    | some target => .ok target
    | none => .error (.malformed (.boundToExpr id e) none)

/-- The scope with a variable bound. -/
def bound (s : Scope) (id : VarId) (e : Expr) : Scope :=
  { s with bindings := s.bindings.insert id e }

/-- The scope with one more event, which concerns the method that is simplified. -/
def logged (s : Scope) (kind : EventKind) (location : Option Nat) (message : String) : Scope :=
  { s with log := s.log ++ [{ kind, method := some s.method, location, message }] }

end Scope

namespace ScopeM

/-- The outcome of a computation that does not depend on the scope. -/
def ofExcept {α : Type} : Except Fault α → ScopeM α
  | .ok a => pure a
  | .error fault => throw fault

/-- Lets a variable stand for an expression from now on. -/
def bindVar (id : VarId) (e : Expr) : ScopeM Unit :=
  modify fun s => s.bound id e

/-- Records an event. -/
def record (kind : EventKind) (location : Option Nat) (message : String) : ScopeM Unit :=
  modify fun s => s.logged kind location message

/-- Adds effects to those of the scope. -/
def addEffects (effects : Effects) : ScopeM Unit :=
  modify fun s => { s with effects := s.effects.absorb effects }

/-- Appends a statement to the buffer. -/
def append (stmt : Stmt) : ScopeM Unit := do
  match (← get).buffer with
  | some stmts => modify fun s => { s with buffer := some (stmts ++ [stmt]) }
  | none => throw .noStatementBuffer

/-- Appends a statement to the buffer and adds its effects. -/
def emit (stmt : Stmt) : ScopeM Unit := do
  let effects ← ofExcept (stmt.effects (← get).vars)
  append stmt
  addEffects effects

/-- Empties the buffer and returns what it held. -/
def takeStatements : ScopeM (List Stmt) := do
  match (← get).buffer with
  | some stmts =>
    modify fun s => { s with buffer := some [] }
    return stmts
  | none => return []

/-- Gives a parameter of a callee a new local of its own, with the parameter's flags, and lets it stand
for the contents of that local. -/
def freshenArgument (param : VarId) (type : TypeRef) (flags : Flags) : ScopeM VarId := do
  let fresh := (← get).vars.nextId
  modify fun s => { s with vars := s.vars.declareFresh type (flags.union { init := true }) }
  bindVar param (.readVar fresh)
  record .argumentFreshened none (param.render ++ " -> " ++ fresh.render)
  return fresh

/-- Gives a local of a callee a new local of its own. The new name ends in the number of variables
declared before it. -/
def freshenLocal (callee : VarTable) (id : VarId) : ScopeM Unit := do
  let declared ← ofExcept (callee.get id)
  let fresh := (← get).vars.nextId
  modify fun s =>
    { s with
      vars := s.vars.declareLocal (declared.name ++ toString s.vars.size) declared.type
        declared.flags }
  bindVar id (.readVar fresh)

/-- Gives every local of a callee a new local of its own. -/
def freshenLocals (callee : VarTable) : ScopeM Unit := do
  callee.locals.forM (freshenLocal callee)
  if !callee.locals.isEmpty then
    record .localsFreshened none (toString callee.locals.length ++ " locals")

/-! ### Nested scopes -/

/-- Runs `act` in the scope made by `enter`; `leave` makes the scope afterwards out of the outer and the
nested one. -/
def nested {α : Type} (enter : Scope → Scope) (leave : Scope → Scope → Scope) (act : ScopeM α) :
    ScopeM α := fun outer =>
  match act (enter outer) with
  | .ok a inner => .ok a (leave outer inner)
  | .error fault inner => .error fault (leave outer inner)

/-- Runs `act` with effects of its own. -/
def withLocalEffects {α : Type} (act : ScopeM α) : ScopeM α :=
  nested (fun s => { s with effects := .bottom s.vars.frame })
    (fun outer inner => { inner with effects := outer.effects }) act

/-- Runs `act` with a buffer and effects of its own. -/
def withFreshStatements {α : Type} (act : ScopeM α) : ScopeM α :=
  nested (fun s => { s with buffer := some [], effects := .bottom s.vars.frame })
    (fun outer inner => { inner with buffer := outer.buffer, effects := outer.effects }) act

/-- Runs `act` with a buffer and effects of its own; what it binds is forgotten afterwards. -/
def withSubMethod {α : Type} (act : ScopeM α) : ScopeM α :=
  nested (fun s => { s with buffer := some [], effects := .bottom s.vars.frame })
    (fun outer inner =>
      { inner with
        bindings := outer.bindings
        buffer := outer.buffer
        effects := outer.effects }) act

/-- Runs `act` where no statement can be emitted. -/
def withoutStatements {α : Type} (act : ScopeM α) : ScopeM α :=
  nested (fun s => { s with buffer := none })
    (fun outer inner => { inner with buffer := outer.buffer, effects := outer.effects }) act

end ScopeM

end Inliner
