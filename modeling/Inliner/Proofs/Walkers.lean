import Inliner.Pass.Terms
import Inliner.Proofs.Commutation

/-!
# The walk over terms in other monads

The walk over terms can be done in any monad that offers what it asks for: to look at the scope, to
emit a statement, to work in a nested scope, and to treat a call. A `Walker` collects these; the
walk along it follows `Pass.expr` and `Pass.stmt` node by node.

If a relation between steps of work in a scope and steps of work in another monad holds of what the
walker offers, and is kept when steps are put together, then it holds between the two walks
(`Related.expr`, `StmtRelated.stmt`). What is to be shown of the walk is thereby reduced to its
steps.
-/

namespace Inliner

/-- The scope with another log. -/
def Scope.withLog (S : Scope) (log : EventLog) : Scope :=
  { S with log }

/-- Computes something from the scope, or is at fault. -/
def ScopeM.look {A : Type} (f : Scope → Except Fault A) : ScopeM A := do
  ofExcept (f (← get))

/-- Runs `act` with a buffer of its own, and returns what it emitted. -/
def ScopeM.collect (act : ScopeM Unit) : ScopeM (List Stmt) :=
  withFreshStatements do
    act
    takeStatements

/-- What the walk over terms asks for. -/
structure Walker (M : Type → Type) where
  /-- Computes something from the scope, or is at fault. -/
  look {A : Type} : (Scope → Except Fault A) → M A
  emit : Stmt → M Unit
  /-- Works where no statement can be emitted. -/
  withoutStatements {A : Type} : M A → M A
  /-- Works with a buffer of its own, and returns what was emitted. -/
  collect : M Unit → M (List Stmt)
  isFactory : MethodRef → Bool
  /-- The expression that stands for a call, if it can be inlined. -/
  inline : MethodRef → List Expr → M (Option Expr)

/-- What the walk in the scope itself uses. -/
def Walker.ofCalls (calls : CallTreatment) : Walker ScopeM where
  look := ScopeM.look
  emit := ScopeM.emit
  withoutStatements := ScopeM.withoutStatements
  collect := ScopeM.collect
  isFactory := calls.isFactory
  inline := calls.inline

/-! ## The walk -/

namespace Walker

variable {M : Type → Type} [Monad M]

def operand (w : Walker M) (act : M Expr) (waiting : Bool) : M (Expr × Bool) := do
  let buffered ← w.look fun S => .ok S.hasBuffer
  let e ← (if waiting && buffered then w.withoutStatements act else act)
  let isValue ← w.look fun S => .ok (e.isValue S.vars)
  return (e, waiting || !isValue)

mutual

def cell (w : Walker M) : Cell → Bool → M (Cell × Bool)
  | .var id, waiting => do
    let c ← w.look fun S => S.resolveCell (.var id)
    return (c, waiting)
  | .field object member, waiting => do
    let (object, waiting) ← w.operand (w.expr object) waiting
    return (.field object member, waiting)
  | .static member, waiting => return (.static member, waiting)
  | .element array index, waiting => do
    let (array, waiting) ← w.operand (w.expr array) waiting
    let (index, waiting) ← w.operand (w.expr index) waiting
    return (.element array index, waiting)
  | .deref pointer, waiting => do
    let (pointer, waiting) ← w.operand (w.expr pointer) waiting
    return (Pass.target pointer, waiting)

def expr (w : Walker M) : Expr → M Expr
  | .const value => return .const value
  | .read (.var id) => w.look fun S => .ok (S.readVar id)
  | .read c => return .read (← w.cell c false).1
  | .addressOf c => return .addressOf (← w.cell c false).1
  | .unary op e => return .unary op (← w.expr e)
  | .binary op left right => do
    let (left, waiting) ← w.operand (w.expr left) false
    let (right, _) ← w.operand (w.expr right) waiting
    return .binary op left right
  | .logical op left right => do
    let left ← w.expr left
    let right ← w.withoutStatements (w.expr right)
    return .logical op left right
  | .conditional cond onTrue onFalse => do
    let cond ← w.expr cond
    let onTrue ← w.withoutStatements (w.expr onTrue)
    let onFalse ← w.withoutStatements (w.expr onFalse)
    return .conditional cond onTrue onFalse
  | .call method args => do
    let args ← w.operands args false
    return (← w.inline method args).getD (.call method args)
  | .callOn method receiver args => do
    let (receiver, waiting) ← w.operand (w.expr receiver) false
    let args ← w.operands args waiting
    return (← w.inline method (receiver :: args)).getD (.callOn method receiver args)
  | .construct method args => do
    let args ← w.operands args false
    if w.isFactory method then
      return (← w.inline method args).getD (.construct method args)
    else
      return .construct method args
  | .marshalOut e => return .marshalOut (← w.expr e)
  | .marshalIn e => return .marshalIn (← w.expr e)

def operands (w : Walker M) : List Expr → Bool → M (List Expr)
  | [], _ => return []
  | e :: rest, waiting => do
    let (e, waiting) ← w.operand (w.expr e) waiting
    let rest ← w.operands rest waiting
    return e :: rest

end

mutual

def stmt (w : Walker M) : Stmt → M Unit
  | .eval e => do
    let e ← w.expr e
    let effects ← w.look fun S => e.effects S.vars
    if !effects.isPure then w.emit (.eval e)
  | .assign c value => do
    let (c, waiting) ← w.cell c false
    let (value, _) ← w.operand (w.expr value) waiting
    w.emit (.assign c value)
  | .ret none => w.emit (.ret none)
  | .ret (some e) => do
    let e ← w.expr e
    w.emit (.ret (some e))
  | .raise e => do
    let e ← w.expr e
    w.emit (.raise e)
  | .branch cond onTrue onFalse => do
    let cond ← w.expr cond
    let onTrue ← w.collect (w.block onTrue)
    let onFalse ← w.collect (w.block onFalse)
    w.emit (.branch cond onTrue onFalse)

def block (w : Walker M) : List Stmt → M Unit
  | [] => return ()
  | s :: rest => do
    w.stmt s
    w.block rest

end

/-! ## Related walks -/

/-- The relation `R` holds of what the walk over expressions asks for, and is kept when steps are
put together. -/
structure Related (R : ∀ A : Type, ScopeM A → M A → Prop) (calls : CallTreatment) (w : Walker M) :
    Prop where
  pure : ∀ {A : Type} (a : A), R A (pure a) (pure a)
  bind : ∀ {A B : Type} {x : ScopeM A} {y : M A} {f : A → ScopeM B} {g : A → M B},
    R A x y → (∀ a, R B (f a) (g a)) → R B (x >>= f) (y >>= g)
  /-- The log is not looked at. -/
  look : ∀ {A : Type} (f : Scope → Except Fault A), (∀ S log, f (S.withLog log) = f S) →
    R A (ScopeM.look f) (w.look f)
  withoutStatements : ∀ {A : Type} {x : ScopeM A} {y : M A}, R A x y →
    R A (ScopeM.withoutStatements x) (w.withoutStatements y)
  isFactory : w.isFactory = calls.isFactory
  inline : ∀ method args, R _ (calls.inline method args) (w.inline method args)

/-- The relation `R` also holds of what the walk over statements asks for. -/
structure StmtRelated (R : ∀ A : Type, ScopeM A → M A → Prop) (calls : CallTreatment)
    (w : Walker M) : Prop extends Related R calls w where
  emit : ∀ s, R Unit (ScopeM.emit s) (w.emit s)
  collect : ∀ {x : ScopeM Unit} {y : M Unit}, R Unit x y → R _ (ScopeM.collect x) (w.collect y)

end Walker

/-- Where the treatment of an operand looks at the scope, it computes something from it. -/
lemma Pass.operand_look (act : ScopeM Expr) (waiting : Bool) :
    operand act waiting = (do
      let buffered ← ScopeM.look fun S => .ok S.hasBuffer
      let e ← (if waiting && buffered then ScopeM.withoutStatements act else act)
      let isValue ← ScopeM.look fun S => .ok (e.isValue S.vars)
      return (e, waiting || !isValue)) := by
  funext S
  have hget : (get : ScopeM Scope) S = .ok S S := rfl
  have hlook : ScopeM.look (fun S => .ok S.hasBuffer) S = .ok S.hasBuffer S := rfl
  rw [operand, bind_of_ok hget, bind_of_ok hlook]
  split <;> rfl

namespace Walker

variable {M : Type → Type} [Monad M] {R : ∀ A : Type, ScopeM A → M A → Prop}
  {calls : CallTreatment} {w : Walker M}

namespace Related

/-- The walks over an operand are related. -/
lemma operand (h : Related R calls w) {act : ScopeM Expr} {act' : M Expr} (hact : R _ act act')
    (waiting : Bool) : R _ (Pass.operand act waiting) (w.operand act' waiting) := by
  rw [Pass.operand_look]
  refine h.bind (h.look _ fun _ _ => rfl) fun buffered => h.bind ?_ fun e =>
    h.bind (h.look _ fun _ _ => rfl) fun _ => h.pure _
  split
  · exact h.withoutStatements hact
  · exact hact

/-- A call that is treated, and left alone if nothing stands for it. -/
lemma inlined (h : Related R calls w) (method : MethodRef) (args : List Expr) (call : Expr) :
    R _ (do return (← calls.inline method args).getD call)
      (do return (← w.inline method args).getD call) :=
  h.bind (h.inline method args) fun _ => h.pure _

mutual

/-- The walks over a cell are related. -/
lemma cell (h : Related R calls w) : ∀ c waiting, R _ (Pass.cell calls c waiting) (w.cell c waiting)
  | .var _, _ => h.bind (h.look _ fun _ _ => rfl) fun _ => h.pure _
  | .field object _, waiting => h.bind (h.operand (h.expr object) waiting) fun _ => h.pure _
  | .static _, _ => h.pure _
  | .element array index, waiting =>
    h.bind (h.operand (h.expr array) waiting) fun (_, waiting) =>
      h.bind (h.operand (h.expr index) waiting) fun _ => h.pure _
  | .deref pointer, waiting => h.bind (h.operand (h.expr pointer) waiting) fun _ => h.pure _

/-- The walks over an expression are related. -/
lemma expr (h : Related R calls w) : ∀ e, R _ (Pass.expr calls e) (w.expr e)
  | .const _ => h.pure _
  | .read (.var id) => h.look (fun S => .ok (S.readVar id)) fun _ _ => rfl
  | .read (.field object member) => h.bind (h.cell (.field object member) false) fun _ => h.pure _
  | .read (.static member) => h.bind (h.cell (.static member) false) fun _ => h.pure _
  | .read (.element array index) => h.bind (h.cell (.element array index) false) fun _ => h.pure _
  | .read (.deref pointer) => h.bind (h.cell (.deref pointer) false) fun _ => h.pure _
  | .addressOf c => h.bind (h.cell c false) fun _ => h.pure _
  | .unary _ e => h.bind (h.expr e) fun _ => h.pure _
  | .binary _ left right =>
    h.bind (h.operand (h.expr left) false) fun (_, waiting) =>
      h.bind (h.operand (h.expr right) waiting) fun _ => h.pure _
  | .logical _ left right =>
    h.bind (h.expr left) fun _ => h.bind (h.withoutStatements (h.expr right)) fun _ => h.pure _
  | .conditional cond onTrue onFalse =>
    h.bind (h.expr cond) fun _ => h.bind (h.withoutStatements (h.expr onTrue)) fun _ =>
      h.bind (h.withoutStatements (h.expr onFalse)) fun _ => h.pure _
  | .call method args =>
    h.bind (h.operands args false) fun args => h.inlined method args (.call method args)
  | .callOn method receiver args =>
    h.bind (h.operand (h.expr receiver) false) fun (receiver, waiting) =>
      h.bind (h.operands args waiting) fun args =>
        h.inlined method (receiver :: args) (.callOn method receiver args)
  | .construct method args => by
    refine h.bind (h.operands args false) fun args => ?_
    rw [h.isFactory]
    split
    · exact h.inlined method args (.construct method args)
    · exact h.pure _
  | .marshalOut e => h.bind (h.expr e) fun _ => h.pure _
  | .marshalIn e => h.bind (h.expr e) fun _ => h.pure _

/-- The walks over several operands are related. -/
lemma operands (h : Related R calls w) :
    ∀ es waiting, R _ (Pass.operands calls es waiting) (w.operands es waiting)
  | [], _ => h.pure _
  | e :: rest, waiting =>
    h.bind (h.operand (h.expr e) waiting) fun (_, waiting) =>
      h.bind (h.operands rest waiting) fun _ => h.pure _

end

end Related

/-- The walk in the scope is the one that uses what the scope offers. -/
lemma related_ofCalls (calls : CallTreatment) :
    Related (fun _ act act' => act = act') calls (ofCalls calls) where
  pure _ := rfl
  bind hx hf := by
    obtain rfl := hx
    obtain rfl := funext hf
    rfl
  look _ _ := rfl
  withoutStatements hx := congrArg ScopeM.withoutStatements hx
  isFactory := rfl
  inline _ _ := rfl

/-- The same for the walk over statements. -/
lemma stmtRelated_ofCalls (calls : CallTreatment) :
    StmtRelated (fun _ act act' => act = act') calls (ofCalls calls) where
  toRelated := related_ofCalls calls
  emit _ := rfl
  collect hx := congrArg ScopeM.collect hx

namespace StmtRelated

mutual

/-- The walks over a statement are related. -/
lemma stmt (h : StmtRelated R calls w) : ∀ s, R _ (Pass.stmt calls s) (w.stmt s)
  | .eval e => by
    refine h.bind (h.expr e) fun e => h.bind (h.look _ fun _ _ => rfl) fun effects => ?_
    split
    · exact h.emit _
    · exact h.pure ()
  | .assign c value =>
    h.bind (h.cell c false) fun (_, waiting) =>
      h.bind (h.operand (h.expr value) waiting) fun _ => h.emit _
  | .ret none => h.emit _
  | .ret (some e) => h.bind (h.expr e) fun _ => h.emit _
  | .raise e => h.bind (h.expr e) fun _ => h.emit _
  | .branch cond onTrue onFalse =>
    h.bind (h.expr cond) fun _ => h.bind (h.collect (h.block onTrue)) fun _ =>
      h.bind (h.collect (h.block onFalse)) fun _ => h.emit _

/-- The walks over the statements of a block are related. -/
lemma block (h : StmtRelated R calls w) : ∀ stmts, R _ (Pass.block calls stmts) (w.block stmts)
  | [] => h.pure ()
  | s :: rest => h.bind (h.stmt s) fun _ => h.block rest

end

end StmtRelated

end Walker

end Inliner
