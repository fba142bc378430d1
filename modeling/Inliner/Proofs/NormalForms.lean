import Inliner.Proofs.CheckedReads
import Inliner.Proofs.FaultKinds

/-!
# Simplification without inlining

If no call is inlined, two things are left to do. A pointer that is taken and followed at once is
not needed, `*&c` is `c` (`Stmt.collapseBlock`), and what is evaluated to no effect need not be
evaluated (`Stmt.pruneBlock`). The second depends on the first: to read a field may raise an
exception, to follow a pointer to the field does not.

Simplification does both in one walk. It does nothing else, and it leaves nothing to do: what comes
out is in normal form (`isCollapsed`, `Stmt.blockIsBusy`), and terms in normal form are left as they
are.
-/

namespace Inliner

/-! ## Collapsing -/

mutual

/-- The cell, in which every `*&c` is replaced by `c`. -/
def Cell.collapse : Cell → Cell
  | .var id => .var id
  | .field object member => .field object.collapse member
  | .static member => .static member
  | .element array index => .element array.collapse index.collapse
  | .deref pointer =>
    match pointer.collapse with
    | .addressOf c => c
    | p => .deref p

/-- The expression, in which every `*&c` is replaced by `c`. -/
def Expr.collapse : Expr → Expr
  | .const value => .const value
  | .read c => .read c.collapse
  | .addressOf c => .addressOf c.collapse
  | .unary op operand => .unary op operand.collapse
  | .binary op left right => .binary op left.collapse right.collapse
  | .logical op left right => .logical op left.collapse right.collapse
  | .conditional cond onTrue onFalse =>
    .conditional cond.collapse onTrue.collapse onFalse.collapse
  | .call method args => .call method (Expr.collapseAll args)
  | .callOn method receiver args => .callOn method receiver.collapse (Expr.collapseAll args)
  | .construct method args => .construct method (Expr.collapseAll args)
  | .marshalOut value => .marshalOut value.collapse
  | .marshalIn value => .marshalIn value.collapse

/-- The expressions, in which every `*&c` is replaced by `c`. -/
def Expr.collapseAll : List Expr → List Expr
  | [] => []
  | e :: rest => e.collapse :: Expr.collapseAll rest

end

mutual

/-- The statement, in which every `*&c` is replaced by `c`. -/
def Stmt.collapse : Stmt → Stmt
  | .eval value => .eval value.collapse
  | .assign target value => .assign target.collapse value.collapse
  | .ret value => .ret (value.map Expr.collapse)
  | .raise exception => .raise exception.collapse
  | .branch cond onTrue onFalse =>
    .branch cond.collapse (Stmt.collapseBlock onTrue) (Stmt.collapseBlock onFalse)

/-- The statements, in which every `*&c` is replaced by `c`. -/
def Stmt.collapseBlock : List Stmt → List Stmt
  | [] => []
  | s :: rest => s.collapse :: Stmt.collapseBlock rest

end

/-- The node does not follow a pointer that it takes itself. -/
def isCollapsed : Expr → Bool
  | .read (.deref (.addressOf _)) => false
  | .addressOf (.deref (.addressOf _)) => false
  | _ => true

/-- It does not matter whether a cell is read or pointed at. -/
lemma isCollapsed_addressOf (c : Cell) : isCollapsed (.addressOf c) = isCollapsed (.read c) := by
  cases c with
  | deref pointer => cases pointer <;> rfl
  | _ => rfl

/-- Nor does it for the nodes below. -/
lemma allNodes_addressOf (c : Cell) :
    (Expr.addressOf c).allNodes isCollapsed = (Expr.read c).allNodes isCollapsed := by
  rw [Expr.allNodes, Expr.allNodes, isCollapsed_addressOf]

/-- The target of a pointer is collapsed if the pointer is. -/
lemma Cell.collapse_deref (pointer : Expr) :
    (Cell.deref pointer).collapse = Pass.target pointer.collapse := by
  rw [Cell.collapse]
  cases pointer.collapse <;> rfl

/-- The target of a collapsed pointer is collapsed. -/
lemma Pass.allNodes_read_target {pointer : Expr} (h : pointer.allNodes isCollapsed = true) :
    (Expr.read (target pointer)).allNodes isCollapsed = true := by
  cases pointer with
  | addressOf c => rwa [target, ← allNodes_addressOf]
  | _ => exact Bool.and_eq_true_iff.2 ⟨rfl, h⟩

mutual

/-- Nothing is left to collapse in a collapsed cell, also where it is read. -/
lemma Cell.allNodes_read_collapse :
    ∀ c : Cell, (Expr.read c.collapse).allNodes isCollapsed = true
  | .var _ => rfl
  | .field object _ => by
    simpa [Cell.collapse, Expr.allNodes, Cell.allNodes, isCollapsed] using
      Expr.allNodes_collapse object
  | .static _ => rfl
  | .element array index => by
    simpa [Cell.collapse, Expr.allNodes, Cell.allNodes, isCollapsed] using
      ⟨Expr.allNodes_collapse array, Expr.allNodes_collapse index⟩
  | .deref pointer => by
    rw [Cell.collapse_deref]
    exact Pass.allNodes_read_target (Expr.allNodes_collapse pointer)

/-- Nothing is left to collapse in a collapsed expression. -/
lemma Expr.allNodes_collapse : ∀ e : Expr, e.collapse.allNodes isCollapsed = true
  | .const _ => rfl
  | .read c => Cell.allNodes_read_collapse c
  | .addressOf c => by
    rw [Expr.collapse, allNodes_addressOf]
    exact Cell.allNodes_read_collapse c
  | .unary _ operand => Expr.allNodes_collapse operand
  | .binary _ left right => Bool.and_eq_true_iff.2 ⟨rfl, Bool.and_eq_true_iff.2
    ⟨Expr.allNodes_collapse left, Expr.allNodes_collapse right⟩⟩
  | .logical _ left right => Bool.and_eq_true_iff.2 ⟨rfl, Bool.and_eq_true_iff.2
    ⟨Expr.allNodes_collapse left, Expr.allNodes_collapse right⟩⟩
  | .conditional cond onTrue onFalse => Bool.and_eq_true_iff.2 ⟨rfl, Bool.and_eq_true_iff.2
    ⟨Expr.allNodes_collapse cond, Bool.and_eq_true_iff.2
      ⟨Expr.allNodes_collapse onTrue, Expr.allNodes_collapse onFalse⟩⟩⟩
  | .call _ args => Expr.everyNode_collapseAll args
  | .callOn _ receiver args => Bool.and_eq_true_iff.2 ⟨rfl, Bool.and_eq_true_iff.2
    ⟨Expr.allNodes_collapse receiver, Expr.everyNode_collapseAll args⟩⟩
  | .construct _ args => Expr.everyNode_collapseAll args
  | .marshalOut value => Expr.allNodes_collapse value
  | .marshalIn value => Expr.allNodes_collapse value

/-- So is each of several expressions. -/
lemma Expr.everyNode_collapseAll :
    ∀ es : List Expr, Expr.everyNode isCollapsed (Expr.collapseAll es) = true
  | [] => rfl
  | e :: rest => Bool.and_eq_true_iff.2
    ⟨Expr.allNodes_collapse e, Expr.everyNode_collapseAll rest⟩

end

mutual

/-- A collapsed statement is in normal form. -/
lemma Stmt.allNodes_collapse : ∀ s : Stmt, s.collapse.allNodes isCollapsed = true
  | .eval value => value.allNodes_collapse
  | .assign target value => Bool.and_eq_true_iff.2
    ⟨target.allNodes_read_collapse, value.allNodes_collapse⟩
  | .ret none => rfl
  | .ret (some value) => value.allNodes_collapse
  | .raise exception => exception.allNodes_collapse
  | .branch cond onTrue onFalse => Bool.and_eq_true_iff.2
    ⟨cond.allNodes_collapse, Bool.and_eq_true_iff.2
      ⟨Stmt.blockNodes_collapseBlock onTrue, Stmt.blockNodes_collapseBlock onFalse⟩⟩

/-- Nothing is left to collapse in collapsed statements. -/
lemma Stmt.blockNodes_collapseBlock :
    ∀ stmts : List Stmt, Stmt.blockNodes isCollapsed (Stmt.collapseBlock stmts) = true
  | [] => rfl
  | s :: rest => Bool.and_eq_true_iff.2
    ⟨Stmt.allNodes_collapse s, Stmt.blockNodes_collapseBlock rest⟩

end

/-- A pointer that is not taken on the spot is followed. -/
lemma Pass.target_of_isCollapsed {pointer : Expr}
    (h : isCollapsed (.read (.deref pointer)) = true) : target pointer = .deref pointer := by
  cases pointer with
  | addressOf c => cases h
  | _ => rfl

mutual

/-- A cell in which there is nothing to collapse is left as it is. -/
lemma Cell.collapse_eq_self :
    ∀ {c : Cell}, (Expr.read c).allNodes isCollapsed = true → c.collapse = c
  | .var _, _ => rfl
  | .field object member, h => by
    rw [Expr.allNodes, Cell.allNodes, Bool.and_eq_true] at h
    rw [Cell.collapse, Expr.collapse_eq_self h.2]
  | .static _, _ => rfl
  | .element array index, h => by
    rw [Expr.allNodes, Cell.allNodes, Bool.and_eq_true, Bool.and_eq_true] at h
    rw [Cell.collapse, Expr.collapse_eq_self h.2.1, Expr.collapse_eq_self h.2.2]
  | .deref pointer, h => by
    rw [Expr.allNodes, Cell.allNodes, Bool.and_eq_true] at h
    rw [Cell.collapse_deref, Expr.collapse_eq_self h.2, Pass.target_of_isCollapsed h.1]

/-- An expression in which there is nothing to collapse is left as it is. -/
lemma Expr.collapse_eq_self : ∀ {e : Expr}, e.allNodes isCollapsed = true → e.collapse = e
  | .const _, _ => rfl
  | .read c, h => by rw [Expr.collapse, Cell.collapse_eq_self h]
  | .addressOf c, h => by
    rw [allNodes_addressOf] at h
    rw [Expr.collapse, Cell.collapse_eq_self h]
  | .unary _ operand, h => by rw [Expr.collapse, Expr.collapse_eq_self (Bool.and_eq_true_iff.1 h).2]
  | .binary _ left right, h => by
    obtain ⟨hleft, hright⟩ := Bool.and_eq_true_iff.1 (Bool.and_eq_true_iff.1 h).2
    rw [Expr.collapse, Expr.collapse_eq_self hleft, Expr.collapse_eq_self hright]
  | .logical _ left right, h => by
    obtain ⟨hleft, hright⟩ := Bool.and_eq_true_iff.1 (Bool.and_eq_true_iff.1 h).2
    rw [Expr.collapse, Expr.collapse_eq_self hleft, Expr.collapse_eq_self hright]
  | .conditional cond onTrue onFalse, h => by
    obtain ⟨hcond, h⟩ := Bool.and_eq_true_iff.1 (Bool.and_eq_true_iff.1 h).2
    obtain ⟨htrue, hfalse⟩ := Bool.and_eq_true_iff.1 h
    rw [Expr.collapse, Expr.collapse_eq_self hcond, Expr.collapse_eq_self htrue,
      Expr.collapse_eq_self hfalse]
  | .call _ args, h => by rw [Expr.collapse, Expr.collapseAll_eq_self (Bool.and_eq_true_iff.1 h).2]
  | .callOn _ receiver args, h => by
    obtain ⟨hreceiver, hargs⟩ := Bool.and_eq_true_iff.1 (Bool.and_eq_true_iff.1 h).2
    rw [Expr.collapse, Expr.collapse_eq_self hreceiver, Expr.collapseAll_eq_self hargs]
  | .construct _ args, h => by
    rw [Expr.collapse, Expr.collapseAll_eq_self (Bool.and_eq_true_iff.1 h).2]
  | .marshalOut value, h => by
    rw [Expr.collapse, Expr.collapse_eq_self (Bool.and_eq_true_iff.1 h).2]
  | .marshalIn value, h => by rw [Expr.collapse, Expr.collapse_eq_self (Bool.and_eq_true_iff.1 h).2]

/-- Expressions in normal form are left as they are. -/
lemma Expr.collapseAll_eq_self :
    ∀ {es : List Expr}, Expr.everyNode isCollapsed es = true → Expr.collapseAll es = es
  | [], _ => rfl
  | e :: rest, h => by
    obtain ⟨he, hrest⟩ := Bool.and_eq_true_iff.1 h
    rw [Expr.collapseAll, Expr.collapse_eq_self he, Expr.collapseAll_eq_self hrest]

end

/-! ## Pruning -/

section Prune

variable (vars : VarTable)

/-- The statement evaluates an expression that writes nothing and raises nothing. -/
def Stmt.isIdle : Stmt → Bool
  | .eval value => (value.effects vars).toOption.any Effects.isPure
  | _ => false

mutual

/-- The statement without idle statements in its branches. -/
def Stmt.prune : Stmt → Stmt
  | .branch cond onTrue onFalse =>
    .branch cond (Stmt.pruneBlock onTrue) (Stmt.pruneBlock onFalse)
  | s => s

/-- The statements without the idle ones, at any depth. -/
def Stmt.pruneBlock : List Stmt → List Stmt
  | [] => []
  | s :: rest =>
    if s.isIdle vars then Stmt.pruneBlock rest else s.prune :: Stmt.pruneBlock rest

end

mutual

/-- The statement is not idle, nor is one in its branches. -/
def Stmt.isBusy : Stmt → Bool
  | .branch _ onTrue onFalse => Stmt.blockIsBusy onTrue && Stmt.blockIsBusy onFalse
  | s => !s.isIdle vars

/-- No statement of the block is idle, at any depth. -/
def Stmt.blockIsBusy : List Stmt → Bool
  | [] => true
  | s :: rest => s.isBusy && Stmt.blockIsBusy rest

end

mutual

/-- What holds of all nodes of a statement holds after pruning. -/
lemma Stmt.allNodes_prune {p : Expr → Bool} :
    ∀ {s : Stmt}, s.allNodes p = true → (s.prune vars).allNodes p = true
  | .eval _, h => h
  | .assign _ _, h => h
  | .ret none, h => h
  | .ret (some _), h => h
  | .raise _, h => h
  | .branch cond onTrue onFalse, h => by
    rw [Stmt.allNodes, Bool.and_eq_true, Bool.and_eq_true] at h
    rw [Stmt.prune, Stmt.allNodes, h.1, Stmt.blockNodes_pruneBlock h.2.1,
      Stmt.blockNodes_pruneBlock h.2.2]
    rfl

/-- What holds of all nodes holds of those that are kept. -/
lemma Stmt.blockNodes_pruneBlock {p : Expr → Bool} :
    ∀ {stmts : List Stmt}, Stmt.blockNodes p stmts = true →
      Stmt.blockNodes p (Stmt.pruneBlock vars stmts) = true
  | [], _ => rfl
  | s :: rest, h => by
    obtain ⟨hs, hrest⟩ := Bool.and_eq_true_iff.1 h
    rw [Stmt.pruneBlock]
    split
    · exact Stmt.blockNodes_pruneBlock hrest
    · exact Bool.and_eq_true_iff.2 ⟨Stmt.allNodes_prune hs, Stmt.blockNodes_pruneBlock hrest⟩

end

mutual

/-- A statement that is not idle stays so, and its blocks have no idle ones left. -/
lemma Stmt.isBusy_prune : ∀ {s : Stmt}, s.isIdle vars = false → (s.prune vars).isBusy vars = true
  | .eval _, h => by rw [Stmt.prune, Stmt.isBusy, h, Bool.not_false] <;> intros <;> contradiction
  | .assign _ _, _ => rfl
  | .ret _, _ => rfl
  | .raise _, _ => rfl
  | .branch _ onTrue onFalse, _ => Bool.and_eq_true_iff.2
    ⟨Stmt.blockIsBusy_pruneBlock onTrue, Stmt.blockIsBusy_pruneBlock onFalse⟩

/-- Nothing idle is left. -/
lemma Stmt.blockIsBusy_pruneBlock :
    ∀ stmts : List Stmt, Stmt.blockIsBusy vars (Stmt.pruneBlock vars stmts) = true
  | [] => rfl
  | s :: rest => by
    rw [Stmt.pruneBlock]
    split
    · exact Stmt.blockIsBusy_pruneBlock rest
    · rename_i hidle
      exact Bool.and_eq_true_iff.2
        ⟨Stmt.isBusy_prune (Bool.eq_false_iff.2 hidle), Stmt.blockIsBusy_pruneBlock rest⟩

end

end Prune

/-! ## The walk over expressions -/

/-- Calls are left alone. -/
def CallTreatment.Inert (calls : CallTreatment) : Prop :=
  ∀ method args, calls.inline method args = pure none

namespace Pass

variable {calls : CallTreatment} {S : Scope}

/-- Work that leaves the scope alone may be done without a buffer. -/
lemma withoutStatements_collapse {act : ScopeM Expr} {e : Expr}
    (hact : ∀ S : Scope, S.bindings = ∅ → act S = .ok e S) (hS : S.bindings = ∅) :
    ScopeM.withoutStatements act S = .ok e S := by
  have hinner := hact { S with buffer := none } hS
  simp only [ScopeM.withoutStatements, ScopeM.nested, hinner]

/-- An operand is walked over like any expression. -/
lemma operand_collapse {act : ScopeM Expr} {e : Expr}
    (hact : ∀ S : Scope, S.bindings = ∅ → act S = .ok e S) (hS : S.bindings = ∅) (waiting : Bool) :
    operand act waiting S = .ok (e, waiting || !e.isValue S.vars) S := by
  rw [operand_eq]
  split
  · exact bind_of_ok (withoutStatements_collapse hact hS)
  · exact bind_of_ok (hact S hS)

/-- A call that is left alone stays. -/
lemma inline_of_inert (hcalls : calls.Inert) (method : MethodRef) (args : List Expr) (call : Expr) :
    (do return (← calls.inline method args).getD call : ScopeM Expr) S = .ok call S := by
  rw [hcalls]
  rfl

mutual

/-- Where nothing is bound and calls are left alone, a cell is collapsed. -/
lemma cell_collapse (hcalls : calls.Inert) :
    ∀ (c : Cell) (waiting : Bool) {S : Scope}, S.bindings = ∅ →
      ∃ waiting', cell calls c waiting S = .ok (c.collapse, waiting') S
  | .var id, waiting, S, hS => by
    have hresolve := Scope.resolveCell_of_readVar (Scope.readVar_of_bindings_empty hS id)
    have hget : (get : ScopeM Scope) S = .ok S S := rfl
    exact ⟨waiting, by rw [cell, bind_of_ok hget, hresolve]; rfl⟩
  | .field object _, waiting, S, hS => by
    have hobject := operand_collapse (fun _ => expr_collapse hcalls object) hS waiting
    exact ⟨_, by rw [cell, bind_of_ok hobject]; rfl⟩
  | .static _, waiting, _, _ => ⟨waiting, rfl⟩
  | .element array index, waiting, S, hS => by
    have harray := operand_collapse (fun _ => expr_collapse hcalls array) hS waiting
    have hindex := operand_collapse (fun _ => expr_collapse hcalls index) hS
      (waiting || !array.collapse.isValue S.vars)
    exact ⟨_, (bind_of_ok harray).trans (bind_of_ok hindex)⟩
  | .deref pointer, waiting, S, hS => by
    have hpointer := operand_collapse (fun _ => expr_collapse hcalls pointer) hS waiting
    exact ⟨_, by rw [cell, bind_of_ok hpointer, Cell.collapse_deref]; rfl⟩

/-- Where nothing is bound and calls are left alone, an expression is collapsed. -/
lemma expr_collapse (hcalls : calls.Inert) :
    ∀ (e : Expr) {S : Scope}, S.bindings = ∅ → expr calls e S = .ok e.collapse S
  | .const _, _, _ => rfl
  | .read (.var id), S, hS => by
    have hget : (get : ScopeM Scope) S = .ok S S := rfl
    rw [expr, bind_of_ok hget, Scope.readVar_of_bindings_empty hS]
    rfl
  | .read (.field object member), S, hS => by
    obtain ⟨waiting, hcell⟩ := cell_collapse hcalls (.field object member) false hS
    exact bind_of_ok hcell
  | .read (.static member), S, hS => rfl
  | .read (.element array index), S, hS => by
    obtain ⟨waiting, hcell⟩ := cell_collapse hcalls (.element array index) false hS
    exact bind_of_ok hcell
  | .read (.deref pointer), S, hS => by
    obtain ⟨waiting, hcell⟩ := cell_collapse hcalls (.deref pointer) false hS
    exact bind_of_ok hcell
  | .addressOf c, S, hS => by
    obtain ⟨waiting, hcell⟩ := cell_collapse hcalls c false hS
    exact bind_of_ok hcell
  | .unary _ operand, S, hS => bind_of_ok (expr_collapse hcalls operand hS)
  | .binary _ left right, S, hS => by
    rw [expr, bind_of_ok (operand_collapse (fun _ => expr_collapse hcalls left) hS false)]
    exact bind_of_ok (operand_collapse (fun _ => expr_collapse hcalls right) hS _)
  | .logical _ left right, S, hS => by
    rw [expr, bind_of_ok (expr_collapse hcalls left hS)]
    exact bind_of_ok (withoutStatements_collapse (fun _ => expr_collapse hcalls right) hS)
  | .conditional cond onTrue onFalse, S, hS => by
    rw [expr, bind_of_ok (expr_collapse hcalls cond hS),
      bind_of_ok (withoutStatements_collapse (fun _ => expr_collapse hcalls onTrue) hS)]
    exact bind_of_ok (withoutStatements_collapse (fun _ => expr_collapse hcalls onFalse) hS)
  | .call method args, S, hS => by
    rw [expr, bind_of_ok (operands_collapse hcalls args false hS)]
    exact inline_of_inert hcalls method _ _
  | .callOn method receiver args, S, hS => by
    rw [expr, bind_of_ok (operand_collapse (fun _ => expr_collapse hcalls receiver) hS false)]
    dsimp only
    rw [bind_of_ok (operands_collapse hcalls args _ hS)]
    exact inline_of_inert hcalls method _ _
  | .construct method args, S, hS => by
    rw [expr, bind_of_ok (operands_collapse hcalls args false hS)]
    split
    · exact inline_of_inert hcalls method _ _
    · rfl
  | .marshalOut value, S, hS => bind_of_ok (expr_collapse hcalls value hS)
  | .marshalIn value, S, hS => bind_of_ok (expr_collapse hcalls value hS)

/-- Several operands are collapsed. -/
lemma operands_collapse (hcalls : calls.Inert) :
    ∀ (es : List Expr) (waiting : Bool) {S : Scope}, S.bindings = ∅ →
      operands calls es waiting S = .ok (Expr.collapseAll es) S
  | [], _, _, _ => rfl
  | e :: rest, waiting, S, hS => by
    rw [operands, bind_of_ok (operand_collapse (fun _ => expr_collapse hcalls e) hS waiting)]
    exact bind_of_ok (operands_collapse hcalls rest _ hS)

end

end Pass

/-! ## The walk over statements -/

namespace Scope

/-- The statements `D` have been appended to the buffer. Nothing else has changed but the effects.
-/
structure Appended (S S' : Scope) (D : List Stmt) : Prop where
  method : S'.method = S.method
  bindings : S'.bindings = S.bindings
  vars : S'.vars = S.vars
  log : S'.log = S.log
  buffer : S'.buffer = S.buffer.map (· ++ D)

/-- The scope with a buffer of its own. -/
def opened (S : Scope) : Scope :=
  { S with buffer := some [], effects := .bottom S.vars.frame }

variable {S S₁ S₂ : Scope} {D D₁ : List Stmt}

/-- Nothing is appended. -/
lemma Appended.refl (S : Scope) : S.Appended S [] where
  method := rfl
  bindings := rfl
  vars := rfl
  log := rfl
  buffer := by simp

/-- More is appended. -/
lemma Appended.trans (h : S.Appended S₁ D) (h' : S₁.Appended S₂ D₁) : S.Appended S₂ (D ++ D₁) where
  method := h'.method.trans h.method
  bindings := h'.bindings.trans h.bindings
  vars := h'.vars.trans h.vars
  log := h'.log.trans h.log
  buffer := by
    rw [h'.buffer, h.buffer, Option.map_map]
    simp [Function.comp_def]

/-- No buffer is opened or closed. -/
lemma Appended.hasBuffer (h : S.Appended S₁ D) : S₁.hasBuffer = S.hasBuffer := by
  rw [Scope.hasBuffer, h.buffer, Option.isSome_map, Scope.hasBuffer]

end Scope

namespace ScopeM

variable {S S' : Scope} {D : List Stmt} {act : ScopeM Unit}

/-- What was appended to a buffer of its own is collected, and the scope is as before. -/
lemma collect_of_appended (hrun : act S.opened = .ok () S') (h : S.opened.Appended S' D) :
    collect act S = .ok D S := by
  have htake : (do act; takeStatements : ScopeM (List Stmt)) S.opened =
      .ok D { S' with buffer := some [] } := by
    rw [bind_of_ok hrun]
    exact takeStatements_eq h.buffer
  have hleave : ({ S' with buffer := S.buffer, effects := S.effects } : Scope) = S := by
    obtain ⟨method, bindings, buffer, effects, vars, log⟩ := S
    simp only [h.method, h.bindings, h.vars, h.log, Scope.opened]
  unfold Scope.opened at htake
  simp only [collect, withFreshStatements, nested, htake, hleave]

/-- If something is collected, then there was a run. -/
lemma exists_of_collect_eq_ok {S₁ : Scope} (h : collect act S = .ok D S₁) :
    ∃ S', act S.opened = .ok () S' := by
  unfold collect withFreshStatements nested at h
  split at h
  · rename_i stmts inner hinner
    obtain ⟨a, S', hrun, -⟩ := exists_of_bind_eq_ok hinner
    exact ⟨S', hrun⟩
  · cases h

/-- If all runs append the same, then this is what is collected. -/
lemma eq_of_collect {S₁ : Scope} {D₁ : List Stmt}
    (hact : ∀ S', act S.opened = .ok () S' → S.opened.Appended S' D)
    (h : collect act S = .ok D₁ S₁) : D = D₁ ∧ S = S₁ := by
  obtain ⟨S', hrun⟩ := exists_of_collect_eq_ok h
  rw [collect_of_appended hrun (hact S' hrun)] at h
  cases h
  exact ⟨rfl, rfl⟩

end ScopeM

/-- The statement is not at fault. -/
def Stmt.HasEffects (vars : VarTable) (s : Stmt) : Prop :=
  ∃ E, s.effects vars = .ok E

/-- A statement that is emitted is appended, and is not at fault. -/
lemma ScopeM.appended_of_emit {s : Stmt} {S S' : Scope} (h : emit s S = .ok () S') :
    S.Appended S' [s] ∧ ∀ t ∈ [s], t.HasEffects S.vars := by
  obtain ⟨stmts, E, hbuffer, hE, rfl⟩ := exists_of_emit_eq_ok h
  exact ⟨⟨rfl, rfl, rfl, rfl, by simp [hbuffer]⟩, List.forall_mem_singleton.2 ⟨E, hE⟩⟩

/-- Statements that are not at fault consist of steps that are not. -/
lemma Stmt.stepOk_of_hasEffects {vars : VarTable} {stmts : List Stmt}
    (h : ∀ s ∈ stmts, s.HasEffects vars) : ∀ step ∈ Stmt.blockSteps vars stmts, StepOk step := by
  induction stmts with
  | nil => exact List.forall_mem_nil _
  | cons s rest ih =>
    obtain ⟨⟨E, hE⟩, hrest⟩ := List.forall_mem_cons.1 h
    exact List.forall_mem_append.2 ⟨Effects.stepOk_of_ofSteps hE, ih hrest⟩

namespace Pass

variable {calls : CallTreatment} {S S' : Scope}

/-! ### What one statement does -/

/-- What is evaluated is emitted unless it has no effect. -/
lemma stmt_eval (hcalls : calls.Inert) (hS : S.bindings = ∅) (e : Expr) :
    stmt calls (.eval e) S = (ScopeM.ofExcept (e.collapse.effects S.vars) >>= fun effects =>
      if !effects.isPure then ScopeM.emit (.eval e.collapse) else pure ()) S := by
  rw [stmt, bind_of_ok (expr_collapse hcalls e hS)]
  rfl

/-- An assignment is collapsed and emitted. -/
lemma stmt_assign (hcalls : calls.Inert) (hS : S.bindings = ∅) (c : Cell) (value : Expr) :
    stmt calls (.assign c value) S = ScopeM.emit (.assign c.collapse value.collapse) S := by
  obtain ⟨waiting, hcell⟩ := cell_collapse hcalls c false hS
  rw [stmt, bind_of_ok hcell]
  exact bind_of_ok (operand_collapse (fun _ => expr_collapse hcalls value) hS waiting)

/-- A return is collapsed and emitted. -/
lemma stmt_ret (hcalls : calls.Inert) (hS : S.bindings = ∅) (value : Option Expr) :
    stmt calls (.ret value) S = ScopeM.emit (.ret (value.map Expr.collapse)) S := by
  cases value with
  | none => rfl
  | some e => exact bind_of_ok (expr_collapse hcalls e hS)

/-- What raises an exception is collapsed and emitted. -/
lemma stmt_raise (hcalls : calls.Inert) (hS : S.bindings = ∅) (e : Expr) :
    stmt calls (.raise e) S = ScopeM.emit (.raise e.collapse) S :=
  bind_of_ok (expr_collapse hcalls e hS)

/-- The blocks of a branch are collected, and the branch is emitted. -/
lemma stmt_branch (hcalls : calls.Inert) (hS : S.bindings = ∅) (cond : Expr)
    (onTrue onFalse : List Stmt) :
    stmt calls (.branch cond onTrue onFalse) S =
      (ScopeM.collect (block calls onTrue) >>= fun stmts => ScopeM.collect (block calls onFalse) >>=
        fun stmts' => ScopeM.emit (.branch cond.collapse stmts stmts')) S :=
  bind_of_ok (expr_collapse hcalls cond hS)

/-! ### What a run appends -/

/-- A block is pruned statement by statement. -/
lemma pruneBlock_cons (vars : VarTable) (s : Stmt) (rest : List Stmt) :
    Stmt.pruneBlock vars (s :: rest) = Stmt.pruneBlock vars [s] ++ Stmt.pruneBlock vars rest := by
  rw [Stmt.pruneBlock, Stmt.pruneBlock, Stmt.pruneBlock]
  split <;> simp

mutual

/-- A statement that can be simplified is collapsed and pruned. -/
lemma appended_of_stmt (hcalls : calls.Inert) :
    ∀ (s : Stmt) {S S' : Scope}, S.bindings = ∅ → stmt calls s S = .ok () S' →
      S.Appended S' (Stmt.pruneBlock S.vars [s.collapse]) ∧
        ∀ t ∈ Stmt.pruneBlock S.vars [s.collapse], t.HasEffects S.vars
  | .eval e, S, S', hS, h => by
    rw [stmt_eval hcalls hS] at h
    cases hE : e.collapse.effects S.vars with
    | error fault =>
      rw [hE] at h
      cases h
    | ok E =>
      rw [hE] at h
      change (if !E.isPure then ScopeM.emit (.eval e.collapse) else pure ()) S = _ at h
      have hidle : (Stmt.eval e.collapse).isIdle S.vars = E.isPure := by
        rw [Stmt.isIdle, hE]
        rfl
      cases hpure : E.isPure with
      | true =>
        rw [hpure] at h hidle
        cases h
        have hnone : Stmt.pruneBlock S.vars [(Stmt.eval e).collapse] = [] := if_pos hidle
        rw [hnone]
        exact ⟨.refl S, List.forall_mem_nil _⟩
      | false =>
        rw [hpure] at h hidle
        have hone : Stmt.pruneBlock S.vars [(Stmt.eval e).collapse] = [.eval e.collapse] :=
          if_neg (Bool.eq_false_iff.1 hidle)
        rw [hone]
        exact ScopeM.appended_of_emit h
  | .assign c value, S, S', hS, h => by
    rw [stmt_assign hcalls hS] at h
    exact ScopeM.appended_of_emit h
  | .ret value, S, S', hS, h => by
    rw [stmt_ret hcalls hS] at h
    exact ScopeM.appended_of_emit h
  | .raise e, S, S', hS, h => by
    rw [stmt_raise hcalls hS] at h
    exact ScopeM.appended_of_emit h
  | .branch cond onTrue onFalse, S, S', hS, h => by
    rw [stmt_branch hcalls hS] at h
    obtain ⟨stmts, S₁, htrue, h⟩ := exists_of_bind_eq_ok h
    obtain ⟨rfl, rfl⟩ := ScopeM.eq_of_collect
      (fun _ hrun => (appended_of_block hcalls onTrue (S := S.opened) hS hrun).1) htrue
    obtain ⟨stmts', S₂, hfalse, h⟩ := exists_of_bind_eq_ok h
    obtain ⟨rfl, rfl⟩ := ScopeM.eq_of_collect
      (fun _ hrun => (appended_of_block hcalls onFalse (S := S.opened) hS hrun).1) hfalse
    exact ScopeM.appended_of_emit h

/-- The statements of a block are collapsed and pruned. -/
lemma appended_of_block (hcalls : calls.Inert) :
    ∀ (stmts : List Stmt) {S S' : Scope}, S.bindings = ∅ → block calls stmts S = .ok () S' →
      S.Appended S' (Stmt.pruneBlock S.vars (Stmt.collapseBlock stmts)) ∧
        ∀ t ∈ Stmt.pruneBlock S.vars (Stmt.collapseBlock stmts), t.HasEffects S.vars
  | [], S, S', _, h => by
    cases h
    exact ⟨.refl S, List.forall_mem_nil _⟩
  | s :: rest, S, S', hS, h => by
    obtain ⟨_, S₁, hs, hrest⟩ := exists_of_bind_eq_ok h
    obtain ⟨happended, heffects⟩ := appended_of_stmt hcalls s hS hs
    obtain ⟨happended', heffects'⟩ :=
      appended_of_block hcalls rest (happended.bindings.trans hS) hrest
    rw [happended.vars] at happended' heffects'
    rw [Stmt.collapseBlock, pruneBlock_cons]
    exact ⟨happended.trans happended', List.forall_mem_append.2 ⟨heffects, heffects'⟩⟩

end

/-! ### Normal forms are left alone -/

/-- A statement that is not at fault can be emitted where there is a buffer. -/
lemma exists_of_hasEffects {s : Stmt} (hbuffer : S.hasBuffer = true) (hs : s.HasEffects S.vars) :
    ∃ S', ScopeM.emit s S = .ok () S' ∧ S.Appended S' [s] := by
  obtain ⟨stmts, hstmts⟩ := Option.isSome_iff_exists.1 hbuffer
  obtain ⟨E, hE⟩ := hs
  have hemit := ScopeM.emit_eq hstmts hE
  exact ⟨_, hemit, (ScopeM.appended_of_emit hemit).1⟩

mutual

/-- A statement in normal form without a fault is emitted as it is. -/
lemma exists_stmt (hcalls : calls.Inert) :
    ∀ (s : Stmt) {S : Scope}, S.bindings = ∅ → S.hasBuffer = true →
      s.allNodes isCollapsed = true → s.isBusy S.vars = true →
      (∀ step ∈ s.steps S.vars, StepOk step) →
        ∃ S', stmt calls s S = .ok () S' ∧ S.Appended S' [s]
  | .eval e, S, hS, hbuffer, hcollapsed, hbusy, hsteps => by
    obtain ⟨E, hE⟩ : (Stmt.eval e).HasEffects S.vars := Effects.exists_ofSteps hsteps
    have heffects : e.effects S.vars = .ok E := hE
    have hpure : E.isPure = false := by
      have hidle : (!(Stmt.eval e).isIdle S.vars) = true := hbusy
      rw [Stmt.isIdle, heffects, Bool.not_eq_true'] at hidle
      exact hidle
    rw [stmt_eval hcalls hS, Expr.collapse_eq_self hcollapsed, heffects]
    change ∃ S', (if !E.isPure then ScopeM.emit (.eval e) else pure ()) S = .ok () S' ∧ _
    rw [hpure]
    exact exists_of_hasEffects hbuffer ⟨E, hE⟩
  | .assign c value, S, hS, hbuffer, hcollapsed, _, hsteps => by
    obtain ⟨hc, hvalue⟩ := Bool.and_eq_true_iff.1 hcollapsed
    rw [stmt_assign hcalls hS, Cell.collapse_eq_self hc, Expr.collapse_eq_self hvalue]
    exact exists_of_hasEffects hbuffer (Effects.exists_ofSteps hsteps)
  | .ret none, S, hS, hbuffer, _, _, hsteps =>
    exists_of_hasEffects hbuffer (Effects.exists_ofSteps hsteps)
  | .ret (some e), S, hS, hbuffer, hcollapsed, _, hsteps => by
    rw [stmt_ret hcalls hS, Option.map_some, Expr.collapse_eq_self hcollapsed]
    exact exists_of_hasEffects hbuffer (Effects.exists_ofSteps hsteps)
  | .raise e, S, hS, hbuffer, hcollapsed, _, hsteps => by
    rw [stmt_raise hcalls hS, Expr.collapse_eq_self hcollapsed]
    exact exists_of_hasEffects hbuffer (Effects.exists_ofSteps hsteps)
  | .branch cond onTrue onFalse, S, hS, hbuffer, hcollapsed, hbusy, hsteps => by
    obtain ⟨hcond, hblocks⟩ := Bool.and_eq_true_iff.1 hcollapsed
    obtain ⟨htrue, hfalse⟩ := Bool.and_eq_true_iff.1 hblocks
    obtain ⟨hbusyTrue, hbusyFalse⟩ := Bool.and_eq_true_iff.1 hbusy
    have hall := hsteps
    rw [Stmt.steps, List.forall_mem_append, List.forall_mem_append] at hall
    obtain ⟨S₁, hrun₁, happended₁⟩ := exists_block hcalls onTrue (S := S.opened) hS rfl htrue
      hbusyTrue hall.1.2
    obtain ⟨S₂, hrun₂, happended₂⟩ := exists_block hcalls onFalse (S := S.opened) hS rfl hfalse
      hbusyFalse hall.2
    rw [stmt_branch hcalls hS, Expr.collapse_eq_self hcond,
      bind_of_ok (ScopeM.collect_of_appended hrun₁ happended₁),
      bind_of_ok (ScopeM.collect_of_appended hrun₂ happended₂)]
    exact exists_of_hasEffects hbuffer (Effects.exists_ofSteps hsteps)

/-- The statements of a block in normal form without a fault are emitted as they are. -/
lemma exists_block (hcalls : calls.Inert) :
    ∀ (stmts : List Stmt) {S : Scope}, S.bindings = ∅ → S.hasBuffer = true →
      Stmt.blockNodes isCollapsed stmts = true → Stmt.blockIsBusy S.vars stmts = true →
      (∀ step ∈ Stmt.blockSteps S.vars stmts, StepOk step) →
        ∃ S', block calls stmts S = .ok () S' ∧ S.Appended S' stmts
  | [], S, _, _, _, _, _ => ⟨S, rfl, .refl S⟩
  | s :: rest, S, hS, hbuffer, hcollapsed, hbusy, hsteps => by
    obtain ⟨hs, hrest⟩ := Bool.and_eq_true_iff.1 hcollapsed
    obtain ⟨hbusyS, hbusyRest⟩ := Bool.and_eq_true_iff.1 hbusy
    rw [Stmt.blockSteps, List.forall_mem_append] at hsteps
    obtain ⟨S₁, hrun, happended⟩ := exists_stmt hcalls s hS hbuffer hs hbusyS hsteps.1
    obtain ⟨S₂, hrun', happended'⟩ := exists_block hcalls rest (happended.bindings.trans hS)
      (happended.hasBuffer.trans hbuffer) hrest (happended.vars ▸ hbusyRest)
      (happended.vars ▸ hsteps.2)
    exact ⟨S₂, (bind_of_ok hrun).trans hrun', happended.trans happended'⟩

end

/-! ### The statements of a method -/

section Off

variable {setting : Setting} (hoff : setting.config.inlining = false)

include hoff

/-- No call is inlined. -/
lemma inline_of_off (location depth : Nat) (active : List MethodRef) (method : MethodRef)
    (args : List Expr) : inline setting location depth active method args = pure none := by
  cases depth with
  | zero => rfl
  | succ depth =>
    rw [inline, hoff]
    rfl

/-- Calls are left alone at the top level. -/
lemma inert_topLevel (method : MethodRef) (location : Nat) :
    (topLevel setting method location).Inert :=
  inline_of_off hoff location setting.config.depth [method]

/-- It does not matter where a call stands. -/
lemma topLevel_of_off (method : MethodRef) (location : Nat) :
    topLevel setting method location = topLevel setting method 0 := by
  unfold topLevel
  congr 1
  funext callee args
  rw [inline_of_off hoff, inline_of_off hoff]

/-- If nothing is inlined, it does not matter where the statements stand. -/
lemma topStmts_eq_block (method : MethodRef) (location : Nat) (stmts : List Stmt) :
    topStmts setting method location stmts = block (topLevel setting method 0) stmts := by
  induction stmts generalizing location with
  | nil => rfl
  | cons s rest ih => rw [topStmts, block, topLevel_of_off hoff, ih (location + 1)]

/-- What is collected are the collapsed and pruned statements, which are not at fault. -/
lemma eq_of_collect_topStmts {method : MethodRef} {stmts D : List Stmt} (hS : S.bindings = ∅)
    (h : ScopeM.collect (topStmts setting method 0 stmts) S = .ok D S') :
    Stmt.pruneBlock S.vars (Stmt.collapseBlock stmts) = D ∧ S = S' ∧
      ∀ s ∈ D, s.HasEffects S.vars := by
  rw [topStmts_eq_block hoff] at h
  have hblock : ∀ {S₁}, block (topLevel setting method 0) stmts S.opened = .ok () S₁ → _ :=
    appended_of_block (inert_topLevel hoff method 0) stmts (S := S.opened) hS
  obtain ⟨S₁, hrun⟩ := ScopeM.exists_of_collect_eq_ok h
  obtain ⟨rfl, rfl⟩ := ScopeM.eq_of_collect (fun _ hrun => (hblock hrun).1) h
  exact ⟨rfl, rfl, (hblock hrun).2⟩

/-- Statements in normal form without a fault are collected as they are. -/
lemma collect_topStmts_eq_self {method : MethodRef} {stmts : List Stmt} (hS : S.bindings = ∅)
    (hcollapsed : Stmt.blockNodes isCollapsed stmts = true)
    (hbusy : Stmt.blockIsBusy S.vars stmts = true) (heffects : ∀ s ∈ stmts, s.HasEffects S.vars) :
    ScopeM.collect (topStmts setting method 0 stmts) S = .ok stmts S := by
  obtain ⟨S₁, hrun, happended⟩ := exists_block (inert_topLevel hoff method 0) stmts
    (S := S.opened) hS rfl hcollapsed hbusy (Stmt.stepOk_of_hasEffects heffects)
  rw [topStmts_eq_block hoff]
  exact ScopeM.collect_of_appended hrun happended

end Off

end Pass

/-! ## Simplification -/

/-- The events of a pass in which nothing is inlined do not change a method. -/
lemma Pass.isTransformation_events (config : Config) (body out : MethodBody) :
    ∀ event ∈ openingEvents config body ++ closingEvents config out,
      event.kind.isTransformation = false := by
  unfold openingEvents closingEvents
  cases config.trace <;> simp [EventKind.isTransformation]

/-- Without inlining, simplification collapses and prunes the statements and does nothing else. The
result is in normal form, and simplifying it again changes nothing. -/
theorem simplify_normalizes {setting : Setting} (hoff : setting.config.inlining = false)
    {body : MethodBody} {log log' : EventLog} {out : Simplified}
    (h : simplify setting body log = .ok out log') :
    out.body = ⟨body.method, body.isImport, body.vars,
      Stmt.pruneBlock body.vars (Stmt.collapseBlock body.stmts)⟩ ∧
    log' = log ++
      (Pass.openingEvents setting.config body ++ Pass.closingEvents setting.config out.body) ∧
    (∀ event ∈ Pass.openingEvents setting.config body ++
      Pass.closingEvents setting.config out.body, event.kind.isTransformation = false) ∧
    Stmt.blockNodes isCollapsed out.body.stmts = true ∧
    Stmt.blockIsBusy out.body.vars out.body.stmts = true ∧
    ∀ log₁, simplify setting out.body log₁ = .ok out (log₁ ++
      (Pass.openingEvents setting.config out.body ++
        Pass.closingEvents setting.config out.body)) := by
  obtain ⟨stmts, S, hcollect, hout, husage, rfl⟩ := exists_of_simplify_eq_ok h
  obtain ⟨rfl, rfl, heffects⟩ := Pass.eq_of_collect_topStmts hoff rfl hcollect
  have hcollapsed : Stmt.blockNodes isCollapsed out.body.stmts = true := by
    rw [hout]
    exact Stmt.blockNodes_pruneBlock body.vars (Stmt.blockNodes_collapseBlock body.stmts)
  have hbusy : Stmt.blockIsBusy out.body.vars out.body.stmts = true := by
    rw [hout]
    exact Stmt.blockIsBusy_pruneBlock body.vars (Stmt.collapseBlock body.stmts)
  have heffects : ∀ s ∈ out.body.stmts, s.HasEffects out.body.vars := by
    rw [hout]
    exact heffects
  refine ⟨hout, List.append_assoc _ _ _, Pass.isTransformation_events _ _ _, hcollapsed, hbusy,
    fun log₁ => ?_⟩
  have hagain : simplify setting out.body log₁ = .ok ⟨out.body, out.body.usage⟩ (log₁ ++
      Pass.openingEvents setting.config out.body ++ Pass.closingEvents setting.config out.body) :=
    simplify_of_collect_eq_ok
      (Pass.collect_topStmts_eq_self hoff rfl hcollapsed hbusy heffects) rfl
  rw [hagain, ← husage, List.append_assoc]

/-- A method full of detours:
`*&x = 1; *&o.total; *&x; if (*&*&x) { x } else { x = *&x }; return *&x`. -/
def detours : MethodBody :=
  ⟨⟨⟨"lib", "Counter", false⟩, "detours", 1, true⟩, false,
    (VarTable.empty.declareArgument "o" intType).declareLocal "x" intType {},
    [.assign (.deref (.addressOf (.var ⟨1⟩))) (.const (.int 1)),
      .eval (.read (.deref (.addressOf (.field (.readVar ⟨0⟩) totalField)))),
      .eval (.read (.deref (.addressOf (.var ⟨1⟩)))),
      .branch (.read (.deref (.addressOf (.deref (.addressOf (.var ⟨1⟩))))))
        [.eval (.readVar ⟨1⟩)]
        [.assign (.var ⟨1⟩) (.read (.deref (.addressOf (.var ⟨1⟩))))],
      .ret (some (.read (.deref (.addressOf (.var ⟨1⟩)))))]⟩

/-- The setting of `tick`, in which its calls are left alone. -/
def keepingSetting : Setting :=
  { tickSetting with config := { inlining := false } }

/-- The detours disappear, and so do the two statements that only read `x`. The field of `o` is
still read, because `o` may be null, although `*&o.total` alone would raise nothing. -/
theorem simplify_normalizes_detours :
    keepingSetting.config.inlining = false ∧
      ∃ out log', simplify keepingSetting detours [] = .ok out log' ∧
        out.body = ⟨detours.method, false, detours.vars,
          [.assign (.var ⟨1⟩) (.const (.int 1)),
            .eval (.read (.field (.readVar ⟨0⟩) totalField)),
            .branch (.readVar ⟨1⟩) [] [.assign (.var ⟨1⟩) (.readVar ⟨1⟩)],
            .ret (some (.readVar ⟨1⟩))]⟩ ∧
        ∃ log₁, simplify keepingSetting out.body [] = .ok out log₁ := by
  have hok : (outcome (simplify keepingSetting detours [])).toOption.isSome = true := by
    decide +kernel
  obtain ⟨out, log', h⟩ : ∃ out log', simplify keepingSetting detours [] = .ok out log' := by
    cases h : simplify keepingSetting detours [] with
    | ok out log' => exact ⟨out, log', rfl⟩
    | error fault log' =>
      rw [h] at hok
      cases hok
  obtain ⟨hout, -, -, -, -, hagain⟩ := simplify_normalizes rfl h
  refine ⟨rfl, out, log', h, hout.trans ?_, _, hagain []⟩
  rfl

end Inliner
