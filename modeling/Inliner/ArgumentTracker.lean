import Inliner.Term.Effects

/-!
# Moving arguments into a callee

An expression that a callee returns can stand for the call if its parameters can be replaced by the
arguments. The arguments are then evaluated where the parameters occurred, and not before the body,
which is the same only under certain conditions. The tracker is told about each occurrence of a
parameter, in evaluation order, and checks them:

* a *free* argument, whose evaluation has no effect to speak of, may occur anywhere and any number of
  times;
* any other argument occurs once, and not under a condition;
* unless all arguments are pure, they occur in the order of the parameters;
* what the callee did before the occurrence commutes with evaluating the argument;
* an argument may be left out only if no argument writes and it cannot raise itself.

A violation is final.
-/

namespace Inliner

/-- What has become of an argument. -/
inductive ArgState where
  /-- Its occurrences are not restricted. -/
  | free
  /-- It has not occurred yet. -/
  | pending
  /-- It has occurred. -/
  | placed
  deriving DecidableEq

/-- The arguments of one call and what has become of them. -/
structure ArgumentTracker where
  parameters : List VarId
  /-- The effects of evaluating each argument. -/
  effects : List Effects
  /-- The effects of evaluating all arguments. -/
  jointEffects : Effects
  states : List ArgState
  failed : Bool

namespace ArgumentTracker

/-- The tracker of a call, before any occurrence. -/
def start (vars : VarTable) (parameters : List VarId) (args : List Expr) :
    Except Fault ArgumentTracker := do
  if parameters.length ≠ args.length then
    throw (.malformed (.argumentCount args.length parameters.length) none)
  let effects ← args.mapM (Expr.effects vars)
  return {
    parameters
    effects
    jointEffects := effects.foldl Effects.absorb (.bottom vars.frame)
    states := args.map fun e => if e.isValue vars then .free else .pending
    failed := false }

/-- No condition was violated so far. -/
def isOk (t : ArgumentTracker) : Bool :=
  !t.failed

/-- The tracker after a violation. -/
def fail (t : ArgumentTracker) : ArgumentTracker :=
  { t with failed := true }

/-- No argument writes anything. -/
def allReadOnly (t : ArgumentTracker) : Bool :=
  t.effects.all Effects.isReadOnly

/-- The position of a parameter, the last one if it is listed twice. -/
def position? (t : ArgumentTracker) (id : VarId) : Option Nat :=
  (t.parameters.zipIdx.reverse.find? fun (p, _) => p == id).map Prod.snd

/-- Argument `i` may occur now: either the order does not matter, or every earlier argument that
matters has occurred. -/
def inOrder (t : ArgumentTracker) (i : Nat) : Bool :=
  Effects.allPure t.effects || (t.states.take i).all (· != .pending)

/-- Two evaluations can be swapped, their effects being padded to a common frame. -/
def movable (done arg : Effects) : Bool :=
  let f := done.frame.sup arg.frame
  Domain.commutes (done.extend f) (arg.extend f)

/-- Notes an occurrence of parameter `i`. The effects `done` are those of the callee's own work before
it; `unconditional` tells that the occurrence is evaluated on every path. -/
def visit (t : ArgumentTracker) (i : Nat) (done : Effects) (unconditional : Bool) :
    ArgumentTracker :=
  if t.failed then t
  else
    match t.states[i]?, t.effects[i]? with
    | some .free, _ => t
    | some .pending, some arg =>
      if unconditional && t.inOrder i && movable done arg then
        { t with states := t.states.set i .placed }
      else t.fail
    | _, _ => t.fail

/-- Some argument was left out that must not be. -/
def dropsEffects (t : ArgumentTracker) : Bool :=
  (t.states.zip t.effects).any fun (s, e) => s == .pending && (!t.allReadOnly || e.throws)

/-- The tracker after the whole callee was seen. -/
def finish (t : ArgumentTracker) : ArgumentTracker :=
  if t.dropsEffects then t.fail else t

end ArgumentTracker

end Inliner
