import Inliner.Pass.Terms
import Inliner.Policy
import Inliner.Substitution

/-!
# Inlining of calls

A call is replaced by the body of its callee where the policy and the limits allow it.

* Where statements can be emitted, the callee's statements are spliced in before the current one, and
  what it returns stands for the call.
* Elsewhere a callee that just returns an expression is inlined by substitution.

A callee's body is walked with the treatment of calls for one level less of nesting, so inlining ends
whatever the methods call.
-/

namespace Inliner

/-- What a method is inlined against. -/
structure Setting where
  /-- The bodies of the methods that are known. -/
  body? : MethodRef → Option MethodBody
  policy : Policy
  config : Config

namespace Pass

/-- Why a call that could have been inlined was left alone. -/
inductive Refusal where
  | tooLarge
  | notInlinable
  | wrongArity
  | earlyReturn
  | notSingleReturn
  | needsStorage
  | immovableArguments
  deriving DecidableEq

/-- The refusal in words. -/
def Refusal.reason : Refusal → String
  | .tooLarge => "body too large"
  | .notInlinable => "not inlinable"
  | .wrongArity => "arity mismatch"
  | .earlyReturn => "return before the end of the body"
  | .notSingleReturn => "not a single return"
  | .needsStorage => "needs storage in expression context"
  | .immovableArguments => "arguments cannot be moved"

/-- Leaves a call of `callee` alone, at the given top-level statement. -/
def refuse (location : Nat) (callee : MethodRef) (refusal : Refusal) : ScopeM (Option Expr) := do
  ScopeM.record .inlineRejected (some location) (callee.render ++ ": " ++ refusal.reason)
  return none

/-- The effects of argument `i` commute with those of every other argument that is not a value. -/
def commutesWithOthers (effects : List Effects) (values : List Bool) (i : Nat) : Bool :=
  (effects.zip values).zipIdx.all fun ((other, isValue), j) =>
    j == i || isValue || (effects[i]?.any fun e => Domain.commutes other e)

/-- The parameter can stand for its argument throughout the callee: the argument is a value, the callee
neither points at nor stores into the parameter, and the evaluation of the other arguments does not
interfere. -/
def isDirect (callee : MethodBody) (param : VarId) (declared : Variable) (effects : List Effects)
    (values : List Bool) (i : Nat) : Bool :=
  values.getD i false && !declared.flags.addressTaken &&
    !Stmt.blockAssigns param callee.stmts && commutesWithOthers effects values i

/-- Lets a parameter stand for its argument, or for a new local to which the argument is assigned. -/
def passArgument (callee : MethodBody) (effects : List Effects) (values : List Bool) (i : Nat)
    (param : VarId) (arg : Expr) : ScopeM Unit := do
  let declared ← ScopeM.ofExcept (callee.vars.get param)
  if isDirect callee param declared effects values i then
    ScopeM.bindVar param arg
  else
    let fresh ← ScopeM.freshenArgument param declared.type declared.flags
    ScopeM.emit (.assign (.var fresh) arg)

/-- Passes the arguments from position `i` on. -/
def passArguments (callee : MethodBody) (effects : List Effects) (values : List Bool) :
    Nat → List (VarId × Expr) → ScopeM Unit
  | _, [] => return ()
  | i, (param, arg) :: rest => do
    passArgument callee effects values i param arg
    passArguments callee effects values (i + 1) rest

/-- Splices the statements of the callee into the buffer. What the callee returns stands for the
call. -/
def splice (calls : CallTreatment) (location : Nat) (callee : MethodBody) (args : List Expr) :
    ScopeM (Option Expr) := do
  match callee.splitReturn? with
  | none => refuse location callee.method .earlyReturn
  | some (leading, value) =>
    let effects ← ScopeM.ofExcept (args.mapM (Expr.effects (← get).vars))
    let values := args.map (Expr.isValue (← get).vars)
    let (result, stmts, spliced) ← ScopeM.withSubMethod do
      passArguments callee effects values 0 (callee.parameters.zip args)
      ScopeM.freshenLocals callee.vars
      block calls leading
      let result ← match value with
        | some e => expr calls e
        | none => pure (.const .null)
      let stmts ← ScopeM.takeStatements
      return (result, stmts, (← get).effects)
    stmts.forM ScopeM.append
    ScopeM.addEffects spliced
    return some result

/-- The callee has locals, or a parameter that is pointed at. -/
def needsStorage (callee : MethodBody) : Bool :=
  !callee.vars.locals.isEmpty ||
    callee.parameters.any fun p => (callee.vars.get? p).any fun v => v.flags.addressTaken

/-- Substitutes the arguments into the expression that the callee returns. -/
def substitute (location : Nat) (callee : MethodBody) (args : List Expr) :
    ScopeM (Option Expr) := do
  match callee.singleReturn? with
  | none => refuse location callee.method .notSingleReturn
  | some e =>
    if needsStorage callee then refuse location callee.method .needsStorage
    else
      match ← ScopeM.ofExcept (Substitution.inlined? (← get).vars callee.parameters args e) with
      | none => refuse location callee.method .immovableArguments
      | some result => return some result

/-- The arguments of a call, marshalled for an imported callee unless the policy passes them raw. -/
def marshalled (policy : Policy) (method : MethodRef) (callee : MethodBody) (args : List Expr) :
    List Expr :=
  if callee.isImport then
    args.zipIdx.map fun (arg, i) => if policy.passesRaw method i then arg else .marshalOut arg
  else args

/-- The body ends by returning a value. -/
def returnsValue (callee : MethodBody) : Bool :=
  match callee.stmts.getLast? with
  | some (.ret (some _)) => true
  | _ => false

/-- The result of an inlined callee, marshalled for an imported one unless the policy takes it raw. -/
def received (policy : Policy) (method : MethodRef) (callee : MethodBody) (result : Expr) : Expr :=
  if callee.isImport && returnsValue callee && !policy.returnsRaw method then .marshalIn result
  else result

/-- The policy allows the callee to be inlined. -/
def isAllowed (policy : Policy) (method : MethodRef) (callee : MethodBody) : Bool :=
  if callee.isImport then policy.isInlinableImport method callee
  else policy.isInlinable method callee

/-- Inlines a call at the given top-level statement, if possible. Besides the limits on the callee, at
most `depth` callees are nested, and none of the methods in `active`, which are being inlined
already, is inlined again. -/
def inline (setting : Setting) (location : Nat) :
    (depth : Nat) → (active : List MethodRef) → MethodRef → List Expr → ScopeM (Option Expr)
  | 0, _, _, _ => return none
  | depth + 1, active, method, args => do
    if !setting.config.inlining || active.contains method then return none
    match setting.body? method with
    | none => return none
    | some callee =>
      if setting.config.statements < callee.size then refuse location method .tooLarge
      else if !isAllowed setting.policy method callee then refuse location method .notInlinable
      else if callee.parameters.length ≠ args.length then refuse location method .wrongArity
      else
        let args := marshalled setting.policy method callee args
        let calls : CallTreatment :=
          ⟨setting.policy.isFactory, inline setting location depth (method :: active)⟩
        let result ←
          if (← get).hasBuffer then splice calls location callee args
          else substitute location callee args
        match result with
        | none => return none
        | some result =>
          ScopeM.record .methodInlined (some location) method.render
          return some (received setting.policy method callee result)

/-- The treatment of calls in the top-level statement at `location` of `method`. -/
def topLevel (setting : Setting) (method : MethodRef) (location : Nat) : CallTreatment :=
  ⟨setting.policy.isFactory, inline setting location setting.config.depth [method]⟩

end Pass

end Inliner
