import Inliner.Term.Effects
import Mathlib.Tactic.Common

/-!
# Evaluation from left to right

Every node of an expression has *parts*, the expressions directly below it. Most nodes are strict:
all parts are evaluated from left to right, and then the operation of the node is done. The others,
short-circuit operators and conditionals, evaluate their first part and then at most one other.

An `Evaluator` says what is done where a variable is read and at every other node, in any monad.
All meanings that are given to expressions in this library are evaluators; they differ in the monad
and in what the nodes do, never in the order of evaluation. The induction principle `Expr.induct`
has one case for the strict nodes and one for each of the others.
-/

namespace Inliner

/-! ## Parts of a node -/

/-- The expressions directly below a cell, in evaluation order. -/
def Cell.parts : Cell → List Expr
  | .var _ => []
  | .field object _ => [object]
  | .static _ => []
  | .element array index => [array, index]
  | .deref pointer => [pointer]

/-- The cell with other expressions directly below it. Only as many as there are parts make
sense. -/
def Cell.withParts : Cell → List Expr → Cell
  | .field _ member, [object] => .field object member
  | .element _ _, [array, index] => .element array index
  | .deref _, [pointer] => .deref pointer
  | c, _ => c

namespace Expr

/-- The expressions directly below a node, in evaluation order. -/
def parts : Expr → List Expr
  | .const _ => []
  | .read cell => cell.parts
  | .addressOf cell => cell.parts
  | .unary _ operand => [operand]
  | .binary _ left right => [left, right]
  | .logical _ left right => [left, right]
  | .conditional cond onTrue onFalse => [cond, onTrue, onFalse]
  | .call _ args => args
  | .callOn _ receiver args => receiver :: args
  | .construct _ args => args
  | .marshalOut value => [value]
  | .marshalIn value => [value]

/-- The node with other expressions directly below it. Only as many as there are parts make
sense. -/
def withParts : Expr → List Expr → Expr
  | .read cell, es => .read (cell.withParts es)
  | .addressOf cell, es => .addressOf (cell.withParts es)
  | .unary op _, [operand] => .unary op operand
  | .binary op _ _, [left, right] => .binary op left right
  | .logical op _ _, [left, right] => .logical op left right
  | .conditional _ _ _, [cond, onTrue, onFalse] => .conditional cond onTrue onFalse
  | .call method _, es => .call method es
  | .callOn method _ _, receiver :: es => .callOn method receiver es
  | .construct method _, es => .construct method es
  | .marshalOut _, [value] => .marshalOut value
  | .marshalIn _, [value] => .marshalIn value
  | e, _ => e

/-- All parts of the node are evaluated before its operation is done. -/
def isStrict : Expr → Bool
  | .logical _ _ _ => false
  | .conditional _ _ _ => false
  | _ => true

/-- The node `n` occurs in an expression. -/
inductive IsNodeOf (n : Expr) : Expr → Prop
  | self : IsNodeOf n n
  | part {a e : Expr} : a ∈ e.parts → IsNodeOf n a → IsNodeOf n e

/-- What holds of an expression whenever it holds of its parts holds of every expression. -/
theorem induct_parts {P : Expr → Prop} (step : ∀ e, (∀ a ∈ e.parts, P a) → P e) (e : Expr) :
    P e := by
  refine @Expr.rec (fun c => ∀ a ∈ c.parts, P a) P (fun es => ∀ a ∈ es, P a)
    ?var ?field ?static ?element ?deref ?const ?read ?addressOf ?unary ?binary ?logical
    ?conditional ?call ?callOn ?construct ?marshalOut ?marshalIn ?nil ?cons e
  case nil => simp
  case cons =>
    intro a es ha hes b hb
    rcases List.mem_cons.1 hb with rfl | hb
    · exact ha
    · exact hes b hb
  case var => simp [Cell.parts]
  case static => simp [Cell.parts]
  case field => exact fun object member ih => by simpa [Cell.parts] using ih
  case element => exact fun array index iha ihi => by simp [Cell.parts, iha, ihi]
  case deref => exact fun pointer ih => by simpa [Cell.parts] using ih
  case const => exact fun value => step _ (by simp [parts])
  case read => exact fun cell ih => step _ ih
  case addressOf => exact fun cell ih => step _ ih
  case unary => exact fun op operand ih => step _ (by simpa [parts] using ih)
  case binary => exact fun op left right ihl ihr => step _ (by simp [parts, ihl, ihr])
  case logical => exact fun op left right ihl ihr => step _ (by simp [parts, ihl, ihr])
  case conditional =>
    exact fun cond onTrue onFalse ihc iht ihf => step _ (by simp [parts, ihc, iht, ihf])
  case call => exact fun method args ih => step _ ih
  case callOn => exact fun method receiver args ihr ih => step _ (by simpa [parts, ihr] using ih)
  case construct => exact fun method args ih => step _ ih
  case marshalOut => exact fun value ih => step _ (by simpa [parts] using ih)
  case marshalIn => exact fun value ih => step _ (by simpa [parts] using ih)

/-- Induction over expressions, with the strict nodes taken together. -/
@[elab_as_elim]
theorem induct {P : Expr → Prop}
    (strict : ∀ e, e.isStrict = true → (∀ a ∈ e.parts, P a) → P e)
    (logical : ∀ op left right, P left → P right → P (.logical op left right))
    (conditional : ∀ cond onTrue onFalse, P cond → P onTrue → P onFalse →
      P (.conditional cond onTrue onFalse)) (e : Expr) : P e := by
  refine induct_parts (fun e ih => ?_) e
  cases e with
  | logical op left right =>
    exact logical op left right (ih left (by simp [parts])) (ih right (by simp [parts]))
  | conditional cond onTrue onFalse =>
    exact conditional cond onTrue onFalse (ih cond (by simp [parts]))
      (ih onTrue (by simp [parts])) (ih onFalse (by simp [parts]))
  | _ => exact strict _ rfl ih

/-- The operands of a cell are its parts. -/
lemma operandSteps_eq (vars : VarTable) (c : Cell) :
    c.operandSteps vars = allSteps vars c.parts := by
  cases c <;> simp [Cell.operandSteps, Cell.parts, allSteps]

/-- The steps of an expression are those of its parts, from left to right, and then its own. -/
lemma steps_eq (vars : VarTable) (e : Expr) :
    e.steps vars = allSteps vars e.parts ++ e.ownSteps vars := by
  cases e <;> simp [steps, parts, allSteps, ownSteps, operandSteps_eq]

end Expr

/-! ## Evaluators -/

/-- The left operand alone decides a short-circuit operation. -/
def LogicalOp.decidedBy : LogicalOp → Bool → Bool
  | .and, left => !left
  | .or, left => left

/-- What is done at the nodes of an expression, in a monad. -/
structure Evaluator (M : Type → Type) (V : Type) where
  /-- Reads a variable. -/
  var : VarId → M V
  /-- Does the operation of a node, given the values of the parts that were evaluated. -/
  op : Expr → List V → M V
  /-- The value counts as true. -/
  truth : V → Bool

namespace Evaluator

section Definition

variable {M : Type → Type} {V : Type} [Monad M] (ev : Evaluator M V)

/-- Does the operation of any node, the reading of variables included. -/
def node : Expr → List V → M V
  | .read (.var id), _ => ev.var id
  | e, vs => ev.op e vs

mutual

/-- The values of the parts of a cell. -/
def evalCell : Cell → M (List V)
  | .var _ => return []
  | .field object _ => do
    return [← eval object]
  | .static _ => return []
  | .element array index => do
    let a ← eval array
    let i ← eval index
    return [a, i]
  | .deref pointer => do
    return [← eval pointer]

/-- The value of an expression. -/
def eval : Expr → M V
  | .const value => ev.op (.const value) []
  | .read (.var id) => ev.var id
  | .read cell => do
    ev.op (.read cell) (← evalCell cell)
  | .addressOf cell => do
    ev.op (.addressOf cell) (← evalCell cell)
  | .unary op operand => do
    ev.op (.unary op operand) [← eval operand]
  | .binary op left right => do
    let a ← eval left
    let b ← eval right
    ev.op (.binary op left right) [a, b]
  | .logical op left right => do
    let a ← eval left
    if op.decidedBy (ev.truth a) then ev.op (.logical op left right) [a]
    else
      let b ← eval right
      ev.op (.logical op left right) [a, b]
  | .conditional cond onTrue onFalse => do
    let a ← eval cond
    if ev.truth a then
      let b ← eval onTrue
      ev.op (.conditional cond onTrue onFalse) [a, b]
    else
      let b ← eval onFalse
      ev.op (.conditional cond onTrue onFalse) [a, b]
  | .call method args => do
    ev.op (.call method args) (← evalAll args)
  | .callOn method receiver args => do
    let a ← eval receiver
    let bs ← evalAll args
    ev.op (.callOn method receiver args) (a :: bs)
  | .construct method args => do
    ev.op (.construct method args) (← evalAll args)
  | .marshalOut value => do
    ev.op (.marshalOut value) [← eval value]
  | .marshalIn value => do
    ev.op (.marshalIn value) [← eval value]

/-- The values of several expressions, evaluated from left to right. -/
def evalAll : List Expr → M (List V)
  | [] => return []
  | e :: rest => do
    let v ← eval e
    let vs ← evalAll rest
    return v :: vs

end

end Definition

section Laws

variable {M : Type → Type} {V : Type} [Monad M] (ev : Evaluator M V)

@[simp] lemma evalAll_nil : ev.evalAll [] = pure [] := by
  rw [evalAll]

lemma evalAll_cons (e : Expr) (rest : List Expr) :
    ev.evalAll (e :: rest) =
      ev.eval e >>= fun v => ev.evalAll rest >>= fun vs => pure (v :: vs) := by
  rw [evalAll]

omit [Monad M] in
/-- The operation of a node that reads no variable. -/
lemma node_of_not_read {e : Expr} (he : e.variableRead? = none) (vs : List V) :
    ev.node e vs = ev.op e vs := by
  unfold node
  split
  · cases he
  · rfl

/-- A short-circuit operation evaluates its right operand only if the left one does not decide. -/
lemma eval_logical (op : LogicalOp) (left right : Expr) :
    ev.eval (.logical op left right) = ev.eval left >>= fun a =>
      if op.decidedBy (ev.truth a) then ev.node (.logical op left right) [a]
      else ev.eval right >>= fun b => ev.node (.logical op left right) [a, b] := by
  rw [eval]
  rfl

/-- A conditional evaluates one of its arms. -/
lemma eval_conditional (cond onTrue onFalse : Expr) :
    ev.eval (.conditional cond onTrue onFalse) = ev.eval cond >>= fun a =>
      if ev.truth a then ev.eval onTrue >>= fun b => ev.node (.conditional cond onTrue onFalse) [a, b]
      else ev.eval onFalse >>= fun b => ev.node (.conditional cond onTrue onFalse) [a, b] := by
  rw [eval]
  rfl

/-- What every node of some expressions does, evaluating them from left to right does, as long as it
is kept when computations are composed. -/
lemma evalAll_closed {Q : ∀ {A : Type}, M A → Prop} (hpure : ∀ {A : Type} (a : A), Q (pure a : M A))
    (hbind : ∀ {A B : Type} {f : M A} {k : A → M B}, Q f → (∀ a, Q (k a)) → Q (f >>= k))
    {es : List Expr} (hes : ∀ e ∈ es, Q (ev.eval e)) : Q (ev.evalAll es) := by
  induction es with
  | nil => simpa using hpure _
  | cons e es ih =>
    rw [evalAll_cons]
    refine hbind (hes e (by simp)) fun v => hbind (ih fun a ha => hes a (by simp [ha])) fun vs => ?_
    exact hpure _

variable [LawfulMonad M]

/-- Several expressions are evaluated part by part. -/
lemma evalAll_append (es fs : List Expr) :
    ev.evalAll (es ++ fs) =
      ev.evalAll es >>= fun vs => ev.evalAll fs >>= fun ws => pure (vs ++ ws) := by
  induction es with
  | nil => simp
  | cons e es ih => simp [evalAll_cons, ih]

/-- The parts of a cell are evaluated from left to right. -/
lemma evalCell_eq (c : Cell) : ev.evalCell c = ev.evalAll c.parts := by
  cases c <;> simp [evalCell, Cell.parts, evalAll_cons]

/-- At a strict node the parts are evaluated from left to right, and then its operation is done. -/
lemma eval_strict {e : Expr} (he : e.isStrict = true) :
    ev.eval e = ev.evalAll e.parts >>= fun vs => ev.node e vs := by
  cases e with
  | read c =>
    cases c <;> simp [eval, evalCell_eq, Expr.parts, node, Cell.parts]
  | logical op left right => cases he
  | conditional cond onTrue onFalse => cases he
  | _ => simp [eval, evalCell_eq, Expr.parts, node, evalAll_cons]

/-- What every node of an expression does, its evaluation does, as long as it is kept when
computations are composed. -/
lemma eval_closed {Q : ∀ {A : Type}, M A → Prop} (hpure : ∀ {A : Type} (a : A), Q (pure a : M A))
    (hbind : ∀ {A B : Type} {f : M A} {k : A → M B}, Q f → (∀ a, Q (k a)) → Q (f >>= k))
    (e : Expr) (hnode : ∀ n, n.IsNodeOf e → ∀ vs, Q (ev.node n vs)) : Q (ev.eval e) := by
  induction e using Expr.induct with
  | strict e he ih =>
    rw [eval_strict ev he]
    refine hbind (ev.evalAll_closed hpure hbind fun a ha => ?_) fun vs => hnode e .self vs
    exact ih a ha fun n hn => hnode n (.part ha hn)
  | logical op left right ihl ihr =>
    have hl := ihl fun n hn => hnode n (.part (by simp [Expr.parts]) hn)
    have hr := ihr fun n hn => hnode n (.part (by simp [Expr.parts]) hn)
    rw [eval_logical]
    refine hbind hl fun a => ?_
    split
    · exact hnode _ .self _
    · exact hbind hr fun b => hnode _ .self _
  | conditional cond onTrue onFalse ihc iht ihf =>
    have hc := ihc fun n hn => hnode n (.part (by simp [Expr.parts]) hn)
    have ht := iht fun n hn => hnode n (.part (by simp [Expr.parts]) hn)
    have hf := ihf fun n hn => hnode n (.part (by simp [Expr.parts]) hn)
    rw [eval_conditional]
    refine hbind hc fun a => ?_
    split
    · exact hbind ht fun b => hnode _ .self _
    · exact hbind hf fun b => hnode _ .self _

end Laws

end Evaluator

end Inliner
