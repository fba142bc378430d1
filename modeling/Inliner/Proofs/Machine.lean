import Inliner.MethodBody
import Inliner.Proofs.Commutation
import Inliner.Proofs.Replacement
import Inliner.Proofs.Scoping
import Mathlib.Logic.Function.Basic

/-!
# Running methods

A `Machine` interprets constants, operators, accesses to the heap, the raising of exceptions, and
all operations that are not looked into: calls, constructions and marshalling. Only accesses to
fields and elements, division, and what is not looked into can raise. On top of a machine, this file
says how expressions are evaluated and statements executed in an environment that holds the
variables, and how a method is run in a new frame.

There are no pointers here. Nothing but an assignment to a variable changes the environment, so an
expression depends on the variables it names only (`values_congr`), and a block leaves alone what it
does not assign (`execBlock_frame`). Without a `return` in it a block runs to its end
(`execBlock_of_noReturn`).
-/

namespace Inliner

/-- What operations do. Values are of type `V`, heaps of type `H`, exceptions of type `X`. -/
structure Machine (V H X : Type) where
  constant : Constant → V
  /-- What a local of the type holds before it is assigned. -/
  default : TypeRef → V
  /-- The value counts as true. -/
  truth : V → Bool
  unary : UnaryOp → V → V
  binary : BinaryOp → V → V → Except X V
  /-- The value of a short-circuit operation, from the operands that were evaluated. -/
  logical : LogicalOp → V → Option V → V
  readField : FieldRef → V → H → Except X V
  writeField : FieldRef → V → V → EStateM X H Unit
  readStatic : FieldRef → H → V
  writeStatic : FieldRef → V → H → H
  readElement : V → V → H → Except X V
  writeElement : V → V → V → EStateM X H Unit
  /-- A call, with the receiver first. -/
  call : MethodRef → List V → EStateM X H V
  construct : MethodRef → List V → EStateM X H V
  marshalOut : V → EStateM X H V
  marshalIn : V → EStateM X H V
  /-- The exception raised with a value. -/
  exception : V → X
  /-- Only division can raise. -/
  binary_ok : ∀ op a b, op.mayThrow = false → ∃ v, binary op a b = .ok v

/-- The values of the variables of a method. -/
abbrev Env (V : Type) : Type :=
  VarId → V

namespace Machine

variable {V H X : Type}

/-! ## Expressions -/

/-- Looks at the heap, and may raise. -/
def peek {A : Type} (f : H → Except X A) : EStateM X H A := fun h =>
  match f h with
  | .ok a => .ok a h
  | .error x => .error x h

/-- The operation of a node, given the values of the parts that were evaluated. Pointers have no
meaning. -/
def operation (m : Machine V H X) : Expr → List V → EStateM X H V
  | .const c, _ => pure (m.constant c)
  | .read (.field _ member), [object] => peek (m.readField member object)
  | .read (.static member), _ => peek fun h => .ok (m.readStatic member h)
  | .read (.element _ _), [array, index] => peek (m.readElement array index)
  | .unary op _, [a] => pure (m.unary op a)
  | .binary op _ _, [a, b] => peek fun _ => m.binary op a b
  | .logical op _ _, a :: rest => pure (m.logical op a rest.head?)
  | .conditional _ _ _, [_, v] => pure v
  | .call method _, vs => m.call method vs
  | .callOn method _ _, vs => m.call method vs
  | .construct method _, vs => m.construct method vs
  | .marshalOut _, [v] => m.marshalOut v
  | .marshalIn _, [v] => m.marshalIn v
  | _, _ => pure (m.constant .null)

/-- The meaning of expressions in an environment. -/
def inEnv (m : Machine V H X) (env : Env V) : Evaluator (EStateM X H) V where
  var id := pure (env id)
  op := m.operation
  truth := m.truth

/-- The value of an expression. -/
abbrev value (m : Machine V H X) (env : Env V) (e : Expr) : EStateM X H V :=
  (m.inEnv env).eval e

/-- The values of several expressions, evaluated from left to right. -/
abbrev values (m : Machine V H X) (env : Env V) (es : List Expr) : EStateM X H (List V) :=
  (m.inEnv env).evalAll es

/-! ## Statements -/

/-- Stores into a cell that is no variable, given the values of its operands. -/
def store (m : Machine V H X) : Cell → List V → V → EStateM X H Unit
  | .field _ member, [object], v => m.writeField member object v
  | .static member, _, v => modify (m.writeStatic member v)
  | .element _ _, [array, index], v => m.writeElement array index v
  | _, _, _ => pure ()

mutual

/-- Executes a statement. The result is the environment after it, and the value that the method
returns if the statement leaves it. -/
def exec (m : Machine V H X) : Stmt → Env V → EStateM X H (Env V × Option V)
  | .eval e, env => do
    let _ ← m.value env e
    return (env, none)
  | .assign (.var id) e, env => do
    let v ← m.value env e
    return (Function.update env id v, none)
  | .assign c e, env => do
    let operands ← m.values env c.parts
    let v ← m.value env e
    m.store c operands v
    return (env, none)
  | .ret none, env => return (env, some (m.constant .null))
  | .ret (some e), env => do
    let v ← m.value env e
    return (env, some v)
  | .raise e, env => do
    let v ← m.value env e
    throw (m.exception v)
  | .branch cond onTrue onFalse, env => do
    let v ← m.value env cond
    if m.truth v then execBlock m onTrue env else execBlock m onFalse env

/-- Executes the statements of a block until one leaves the method. -/
def execBlock (m : Machine V H X) : List Stmt → Env V → EStateM X H (Env V × Option V)
  | [], env => return (env, none)
  | s :: rest, env => do
    let (env, result) ← exec m s env
    match result with
    | some v => return (env, some v)
    | none => execBlock m rest env

end

/-- Executes a block for the environment that it leaves. -/
def runBlock (m : Machine V H X) (stmts : List Stmt) (env : Env V) : EStateM X H (Env V) := do
  return (← m.execBlock stmts env).1

/-- The variables of a new frame: the parameters hold the actual values in order, the locals the
defaults of their types. -/
def newFrame (m : Machine V H X) (vars : VarTable) (actuals : List V) : Env V := fun id =>
  match (vars.arguments.idxOf? id).bind fun i => actuals[i]? with
  | some v => v
  | none => (vars.get? id).elim (m.constant .null) fun v => m.default v.type

/-- Runs a method in a new frame. A body that falls off its end returns null. -/
def run (m : Machine V H X) (body : MethodBody) (actuals : List V) : EStateM X H V := do
  let (_, result) ← m.execBlock body.stmts (m.newFrame body.vars actuals)
  return result.getD (m.constant .null)

/-! ## What evaluation depends on -/

variable {m : Machine V H X}

/-- The operation of a node does not depend on what its parts are. -/
lemma operation_withParts (e : Expr) (es : List Expr) (vs : List V) :
    m.operation (e.withParts es) vs = m.operation e vs := by
  -- the operation looks at the number of values, so that is split too
  rcases vs with _ | ⟨a, _ | ⟨b, _ | ⟨c, rest⟩⟩⟩ <;>
  · cases e with
    | read c =>
      change m.operation (.read (c.withParts es)) _ = _
      unfold Cell.withParts
      split <;> rfl
    | addressOf c => rfl
    | _ =>
      unfold Expr.withParts
      split <;> simp_all [operation]

/-- Replacing variables below a node does not change its operation. -/
lemma operation_subst {e : Expr} (he : e.variableRead? = none) (σ : VarId → Expr) (vs : List V) :
    m.operation (e.subst σ) vs = m.operation e vs := by
  rw [Expr.subst_eq_withParts he, operation_withParts]

/-- The operation of a node that reads no variable. -/
lemma node_inEnv {env : Env V} {e : Expr} (he : e.variableRead? = none) (vs : List V) :
    (m.inEnv env).node e vs = m.operation e vs :=
  Evaluator.node_of_not_read _ he vs

lemma values_cons {env : Env V} (e : Expr) (es : List Expr) :
    m.values env (e :: es) =
      m.value env e >>= fun v => m.values env es >>= fun vs => pure (v :: vs) :=
  Evaluator.evalAll_cons _ e es

lemma values_singleton {env : Env V} (e : Expr) :
    m.values env [e] = m.value env e >>= fun v => pure [v] := by
  simp [values_cons]

/-- An expression depends on the variables that it names only. -/
lemma value_congr {env env' : Env V} {n : Nat} {e : Expr} (he : e.allNodes (inScope n) = true)
    (henv : ∀ id : VarId, id.index < n → env id = env' id) : m.value env e = m.value env' e := by
  have hrelated : m.value env e = m.value env' (e.subst Expr.readVar) := by
    refine Evaluator.eval_related (M := EStateM X H) (N := EStateM X H) (R := Eq)
      (fun _ => rfl) (fun hf hk => by rw [hf, funext hk]) ?_ e ?_ ?_
    · rfl
    · intro n _ hn vs
      rw [node_inEnv hn, n.subst_readVar, node_inEnv hn]
    · intro id hid
      have hscope := Expr.allNodes_of_isNodeOf he hid
      change pure (env id) = (m.inEnv env').eval (.readVar id)
      rw [Evaluator.eval, henv id (by simpa [inScope] using hscope)]
      rfl
  rwa [e.subst_readVar] at hrelated

/-- Expressions depend on the variables that they name only. -/
lemma values_congr {env env' : Env V} {n : Nat} {es : List Expr}
    (hes : ∀ e ∈ es, e.allNodes (inScope n) = true)
    (henv : ∀ id : VarId, id.index < n → env id = env' id) :
    m.values env es = m.values env' es := by
  induction es with
  | nil => simp [values]
  | cons e rest ih =>
    rw [values_cons, values_cons, value_congr (hes e (by simp)) henv,
      ih fun a ha => hes a (by simp [ha])]

/-- As many values are returned as there are expressions. -/
lemma length_of_values {env : Env V} {es : List Expr} {vs : List V} {h h' : H}
    (hvs : m.values env es h = .ok vs h') : vs.length = es.length := by
  induction es generalizing vs h with
  | nil =>
    rw [values, Evaluator.evalAll_nil] at hvs
    cases hvs
    rfl
  | cons e rest ih =>
    rw [values_cons] at hvs
    obtain ⟨v, h₁, -, hvs⟩ := exists_of_bind_eq_ok hvs
    obtain ⟨ws, h₂, hws, hvs⟩ := exists_of_bind_eq_ok hvs
    cases hvs
    simp [ih hws]

/-! ## What blocks do -/

/-- A block after another one runs unless the first one left the method. -/
lemma execBlock_append (xs ys : List Stmt) (env : Env V) :
    m.execBlock (xs ++ ys) env = m.execBlock xs env >>= fun p =>
      match p.2 with
      | some v => pure (p.1, some v)
      | none => m.execBlock ys p.1 := by
  induction xs generalizing env with
  | nil => simp [execBlock]
  | cons s xs ih =>
    rw [List.cons_append, execBlock, execBlock, bind_assoc]
    refine congrArg _ (funext fun p => ?_)
    obtain ⟨env', result⟩ := p
    cases result with
    | none => exact ih env'
    | some v => simp

@[simp] lemma execBlock_singleton (s : Stmt) (env : Env V) :
    m.execBlock [s] env = m.exec s env := by
  have hrest : ∀ p : Env V × Option V,
      (match p.2 with
        | some v => pure (p.1, some v)
        | none => m.execBlock [] p.1 : EStateM X H (Env V × Option V)) = pure p := by
    rintro ⟨env', result⟩
    cases result <;> simp [execBlock]
  rw [execBlock]
  exact (congrArg _ (funext hrest)).trans (bind_pure _)

mutual

/-- A statement leaves alone what it does not assign, and leaves the method only if it contains a
`return`. -/
lemma exec_frame {s : Stmt} {env : Env V} {p : Env V × Option V} {h h' : H}
    (hs : m.exec s env h = .ok p h') :
    (∀ id, s.assigns id = false → p.1 id = env id) ∧ (s.containsReturn = false → p.2 = none) := by
  cases s with
  | eval e =>
    rw [exec] at hs
    obtain ⟨v, h₁, -, hs⟩ := exists_of_bind_eq_ok hs
    cases hs
    exact ⟨fun _ _ => rfl, fun _ => rfl⟩
  | assign c e =>
    cases c with
    | var target =>
      rw [exec] at hs
      obtain ⟨v, h₁, -, hs⟩ := exists_of_bind_eq_ok hs
      cases hs
      refine ⟨fun id hid => ?_, fun _ => rfl⟩
      have hne : id ≠ target := by
        rintro rfl
        simp [Stmt.assigns] at hid
      exact Function.update_of_ne hne _ _
    | _ =>
      rw [exec] at hs
      · obtain ⟨operands, h₁, -, hs⟩ := exists_of_bind_eq_ok hs
        obtain ⟨v, h₂, -, hs⟩ := exists_of_bind_eq_ok hs
        obtain ⟨⟨⟩, h₃, -, hs⟩ := exists_of_bind_eq_ok hs
        cases hs
        exact ⟨fun _ _ => rfl, fun _ => rfl⟩
      · simp
  | ret value =>
    cases value with
    | none =>
      rw [exec] at hs
      cases hs
      exact ⟨fun _ _ => rfl, fun hret => by cases hret⟩
    | some e =>
      rw [exec] at hs
      obtain ⟨v, h₁, -, hs⟩ := exists_of_bind_eq_ok hs
      cases hs
      exact ⟨fun _ _ => rfl, fun hret => by cases hret⟩
  | raise e =>
    rw [exec] at hs
    obtain ⟨v, h₁, -, hs⟩ := exists_of_bind_eq_ok hs
    cases hs
  | branch cond onTrue onFalse =>
    rw [exec] at hs
    obtain ⟨v, h₁, -, hs⟩ := exists_of_bind_eq_ok hs
    simp only [Stmt.assigns, Stmt.containsReturn, Bool.or_eq_false_iff]
    split at hs
    · obtain ⟨hframe, hret⟩ := execBlock_frame hs
      exact ⟨fun id hid => hframe id hid.1, fun h => hret h.1⟩
    · obtain ⟨hframe, hret⟩ := execBlock_frame hs
      exact ⟨fun id hid => hframe id hid.2, fun h => hret h.2⟩

/-- A block leaves alone what it does not assign, and leaves the method only if it contains a
`return`. -/
lemma execBlock_frame {stmts : List Stmt} {env : Env V} {p : Env V × Option V} {h h' : H}
    (hs : m.execBlock stmts env h = .ok p h') :
    (∀ id, Stmt.blockAssigns id stmts = false → p.1 id = env id) ∧
      (Stmt.blockContainsReturn stmts = false → p.2 = none) := by
  cases stmts with
  | nil =>
    rw [execBlock] at hs
    cases hs
    exact ⟨fun _ _ => rfl, fun _ => rfl⟩
  | cons s rest =>
    rw [execBlock] at hs
    obtain ⟨q, h₁, hq, hs⟩ := exists_of_bind_eq_ok hs
    obtain ⟨hframe, hret⟩ := exec_frame hq
    obtain ⟨env₁, result⟩ := q
    simp only [Stmt.blockAssigns, Stmt.blockContainsReturn, Bool.or_eq_false_iff]
    cases result with
    | some v =>
      cases hs
      exact ⟨fun id hid => hframe id hid.1, fun h => by cases hret h.1⟩
    | none =>
      obtain ⟨hframe', hret'⟩ := execBlock_frame hs
      exact ⟨fun id hid => (hframe' id hid.2).trans (hframe id hid.1), fun h => hret' h.2⟩

end

/-- What is left alone by running a block. -/
lemma runBlock_frame {stmts : List Stmt} {env env' : Env V} {h h' : H}
    (hs : m.runBlock stmts env h = .ok env' h')
    {id : VarId} (hid : Stmt.blockAssigns id stmts = false) : env' id = env id := by
  obtain ⟨p, h₁, hp, hs⟩ := exists_of_bind_eq_ok hs
  cases hs
  exact (execBlock_frame hp).1 id hid

/-- Without a `return` in it, a block runs to its end. -/
lemma execBlock_of_noReturn {stmts : List Stmt} (h : Stmt.blockContainsReturn stmts = false)
    (env : Env V) :
    m.execBlock stmts env = m.runBlock stmts env >>= fun env' => pure (env', none) := by
  rw [runBlock, bind_assoc]
  funext heap
  have hpure : m.execBlock stmts env heap = (m.execBlock stmts env >>= pure) heap := by
    rw [bind_pure]
  rw [hpure]
  refine bind_congr_of_ok fun p heap' hp => ?_
  obtain ⟨env', result⟩ := p
  obtain rfl : result = none := (execBlock_frame hp).2 h
  rfl

/-- Without a `return` in the first of two blocks, both are run. -/
lemma execBlock_append_of_noReturn {xs : List Stmt} (h : Stmt.blockContainsReturn xs = false)
    (ys : List Stmt) (env : Env V) :
    m.execBlock (xs ++ ys) env = m.runBlock xs env >>= fun env' => m.execBlock ys env' := by
  rw [execBlock_append, execBlock_of_noReturn h]
  simp

/-- Without a `return` in the first of two blocks, both are run. -/
lemma runBlock_append {xs : List Stmt} (h : Stmt.blockContainsReturn xs = false)
    (ys : List Stmt) (env : Env V) :
    m.runBlock (xs ++ ys) env = m.runBlock xs env >>= fun env' => m.runBlock ys env' := by
  rw [runBlock, execBlock_append_of_noReturn h]
  simp [runBlock]

@[simp] lemma runBlock_nil (env : Env V) : m.runBlock [] env = pure env := by
  simp [runBlock, execBlock]

end Machine

end Inliner
