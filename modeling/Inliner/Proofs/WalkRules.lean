import Inliner.Proofs.Evaluation
import Inliner.Proofs.Walkers

/-!
# A rule for invariants of the walk

Many things are to be shown of the walk over terms, and the walk itself is the same in all of them:
the parts of a node are walked over from left to right, and then the node is put together again or a
call is treated. This file follows the walk once.

What is shown is given by a `WalkSpec`. It relates an expression to what becomes of it, and the state
before to the state afterwards, and likewise for storage, blocks and statements. `Walker.Keeps` lists
what has to hold where a variable is named, at a node whose parts were walked over, and at a call;
`Walker.KeepsStmts` adds what has to hold where a statement is emitted. From this the relations hold
of all expressions and all statements (`Keeps.expr`, `KeepsStmts.stmt`, `KeepsStmts.block`).

How one speaks of the outcome of work is left open as well (`Outcomes`). The work may have to succeed,
or it may be allowed to be at fault.
-/

namespace Inliner

/-! ## Outcomes of work -/

/-- What is computed has the property, or the fault is fine. -/
def GivesOr {A : Type} (fine : Fault → Prop) (x : Except Fault A) (Q : A → Prop) : Prop :=
  match x with
  | .ok a => Q a
  | .error fault => fine fault

/-- A weaker property of the results. -/
lemma GivesOr.mono {A : Type} {fine : Fault → Prop} {x : Except Fault A} {Q R : A → Prop}
    (h : GivesOr fine x Q) (hQ : ∀ a, Q a → R a) : GivesOr fine x R := by
  cases x with
  | ok a => exact hQ a h
  | error fault => exact h

/-- One computation after the other. -/
lemma GivesOr.bind {A B : Type} {fine : Fault → Prop} {x : Except Fault A}
    {f : A → Except Fault B} {Q : A → Prop} {R : B → Prop} (h : GivesOr fine x Q)
    (hf : ∀ a, Q a → GivesOr fine (f a) R) : GivesOr fine (x >>= f) R := by
  cases x with
  | ok a => exact hf a h
  | error fault => exact h

/-- If no fault is fine, then there is a result. -/
lemma GivesOr.exists_ok {A : Type} {x : Except Fault A} {Q : A → Prop}
    (h : GivesOr (fun _ => False) x Q) : ∃ a, x = .ok a ∧ Q a := by
  cases x with
  | ok a => exact ⟨a, rfl, h⟩
  | error fault => exact h.elim

/-- If every fault is fine, then only results matter. -/
lemma GivesOr.of_forall {A : Type} {fine : Fault → Prop} {x : Except Fault A} {Q : A → Prop}
    (hfine : ∀ fault, fine fault) (h : ∀ a, x = .ok a → Q a) : GivesOr fine x Q := by
  cases x with
  | ok a => exact h a rfl
  | error fault => exact hfine fault

/-- A way to speak of what becomes of work that is begun in some state. -/
structure Outcomes (M : Type → Type) [Monad M] (σ : Type) where
  /-- The scope that is seen in a state. -/
  view : σ → Scope
  /-- The work may be at fault like this. -/
  fine : Fault → Prop
  /-- Begun in the state, the work ends with a result and a state as described, or it is at fault in a
  way that is fine. -/
  Ensures {A : Type} : σ → M A → (A → σ → Prop) → Prop
  pure {A : Type} {a : A} {st : σ} {Q : A → σ → Prop} : Q a st → Ensures st (pure a) Q
  bind {A B : Type} {act : M A} {k : A → M B} {st : σ} {Q : B → σ → Prop} :
    Ensures st act (fun a st' => Ensures st' (k a) Q) → Ensures st (act >>= k) Q
  mono {A : Type} {act : M A} {st : σ} {Q R : A → σ → Prop} :
    Ensures st act Q → (∀ a st', Q a st' → R a st') → Ensures st act R

namespace Outcomes

variable {M : Type → Type} [Monad M] {σ : Type} {A B : Type}

/-- One step after the other. -/
lemma seq (O : Outcomes M σ) {act : M A} {k : A → M B} {st : σ} {Q : A → σ → Prop}
    {R : B → σ → Prop} (h : O.Ensures st act Q) (hk : ∀ a st', Q a st' → O.Ensures st' (k a) R) :
    O.Ensures st (act >>= k) R :=
  O.bind (O.mono h hk)

end Outcomes

/-! ## What is shown of a walk -/

/-- The node reads a variable or points at one. -/
def Expr.namesVar : Expr → Bool
  | .read (.var _) => true
  | .addressOf (.var _) => true
  | _ => false

/-- A node names a variable only where it reads one or points at one. -/
lemma Expr.namesVar_eq_false {e : Expr} (hread : e.variableRead? = none)
    (haddress : ∀ id, e ≠ .addressOf (.var id)) : e.namesVar = false := by
  unfold namesVar
  split
  · cases hread
  · rename_i id
    exact absurd rfl (haddress id)
  · rfl

/-- A variable that is read is named. -/
lemma Expr.variableRead?_eq_none {e : Expr} (h : e.namesVar = false) : e.variableRead? = none := by
  unfold variableRead?
  split
  · cases h
  · rfl

/-- The method that is called at the node. -/
def Expr.method? : Expr → Option MethodRef
  | .call method _ => some method
  | .callOn method _ _ => some method
  | .construct method _ => some method
  | _ => none

/-- A call names no variable. -/
lemma Expr.namesVar_of_method? {e : Expr} {method : MethodRef} (h : e.method? = some method) :
    e.namesVar = false := by
  cases e with
  | read c => cases h
  | addressOf c => cases h
  | _ => rfl

/-- The statement is made of expressions, storage and blocks with the given properties. -/
def Stmt.MadeOf (E : Expr → Prop) (C : Cell → Prop) (B : List Stmt → Prop) : Stmt → Prop
  | .eval e => E e
  | .assign c e => C c ∧ E e
  | .ret none => True
  | .ret (some e) => E e
  | .raise e => E e
  | .branch cond onTrue onFalse => E cond ∧ B onTrue ∧ B onFalse

/-- A statement is made of whatever there is. -/
lemma Stmt.madeOf_of_forall {E : Expr → Prop} {C : Cell → Prop} {B : List Stmt → Prop}
    (hE : ∀ e, E e) (hC : ∀ c, C c) (hB : ∀ stmts, B stmts) (s : Stmt) : s.MadeOf E C B := by
  cases s with
  | eval e => exact hE e
  | assign c e => exact ⟨hC c, hE e⟩
  | ret value =>
    cases value with
    | none => trivial
    | some e => exact hE e
  | raise e => exact hE e
  | branch cond onTrue onFalse => exact ⟨hE cond, hB onTrue, hB onFalse⟩

/-- What is to be shown of a walk, with states of the type `σ` before and after it. -/
structure WalkSpec (σ : Type) where
  /-- The state is one for expressions. -/
  fit : σ → Prop
  /-- The state is one for statements. -/
  fitStmt : σ → Prop
  /-- The expressions that are walked over. -/
  source : Expr → Prop
  /-- The storage that is walked over where something is stored into it. -/
  sourceTarget : Cell → Prop
  /-- The statements that are walked over. -/
  sourceStmt : Stmt → Prop
  /-- What becomes of an expression, from a state to a later one. -/
  expr : σ → Expr → Expr → σ → Prop
  /-- What becomes of storage that is stored into. -/
  target : σ → Cell → Cell → σ → Prop
  /-- What is emitted for a block into a buffer of its own. -/
  arm : σ → List Stmt → List Stmt → σ → Prop
  /-- The state before a statement and the state after it. -/
  stmt : σ → Stmt → σ → Prop

namespace WalkSpec

variable {σ : Type}

/-- What becomes of several expressions, one after the other. -/
inductive Exprs (P : WalkSpec σ) : σ → List Expr → List Expr → σ → Prop
  | nil (st : σ) : P.Exprs st [] [] st
  | cons {st st₁ st₂ : σ} {e e' : Expr} {es es' : List Expr} :
    P.expr st e e' st₁ → P.Exprs st₁ es es' st₂ → P.Exprs st (e :: es) (e' :: es') st₂

/-- The states before and after several statements. -/
inductive Stmts (P : WalkSpec σ) : σ → List Stmt → σ → Prop
  | nil (st : σ) : P.Stmts st [] st
  | cons {st st₁ st₂ : σ} {s : Stmt} {rest : List Stmt} :
    P.stmt st s st₁ → P.Stmts st₁ rest st₂ → P.Stmts st (s :: rest) st₂

/-- What is left of a statement, before it is emitted. -/
inductive Left (P : WalkSpec σ) : σ → Stmt → Stmt → σ → Prop
  | eval {st st' : σ} {e e' : Expr} : P.expr st e e' st' → P.Left st (.eval e) (.eval e') st'
  | assign {st st₁ st₂ : σ} {c c' : Cell} {e e' : Expr} :
    P.target st c c' st₁ → P.expr st₁ e e' st₂ → P.Left st (.assign c e) (.assign c' e') st₂
  | retNone (st : σ) : P.Left st (.ret none) (.ret none) st
  | ret {st st' : σ} {e e' : Expr} :
    P.expr st e e' st' → P.Left st (.ret (some e)) (.ret (some e')) st'
  | raise {st st' : σ} {e e' : Expr} : P.expr st e e' st' → P.Left st (.raise e) (.raise e') st'
  | branch {st st₁ st₂ st₃ : σ} {cond cond' : Expr} {onTrue onTrue' onFalse onFalse' : List Stmt} :
    P.expr st cond cond' st₁ → P.arm st₁ onTrue onTrue' st₂ → P.arm st₂ onFalse onFalse' st₃ →
      P.Left st (.branch cond onTrue onFalse) (.branch cond' onTrue' onFalse') st₃

end WalkSpec

/-! ## What has to hold at the nodes -/

section Keeps

variable {M : Type → Type} [Monad M] {σ : Type}

/-- The relations of the specification hold at variables, nodes and calls. -/
structure Walker.Keeps (w : Walker M) (O : Outcomes M σ) (P : WalkSpec σ) : Prop where
  fit_expr : ∀ {st st' : σ} {e e' : Expr}, P.expr st e e' st' → P.fit st → P.fit st'
  part : ∀ {e a : Expr}, P.source e → a ∈ e.parts → P.source a
  look : ∀ {A : Type} {f : Scope → Except Fault A} {st : σ} {Q : A → σ → Prop},
    GivesOr O.fine (f (O.view st)) (fun a => Q a st) → O.Ensures st (w.look f) Q
  withoutStatements : ∀ {act : M Expr} {e : Expr} {st : σ}, P.fit st →
    (∀ st, P.fit st → O.Ensures st act (P.expr st e)) →
      O.Ensures st (w.withoutStatements act) (P.expr st e)
  readVar : ∀ {id : VarId} {st : σ}, P.fit st → P.source (.readVar id) →
    P.expr st (.readVar id) ((O.view st).readVar id) st
  pointTo : ∀ {id : VarId} {st : σ}, P.fit st → P.source (.addressOf (.var id)) →
    GivesOr O.fine ((O.view st).resolveCell (.var id)) fun c =>
      P.expr st (.addressOf (.var id)) (.addressOf c) st
  /-- A node is put together again. -/
  node : ∀ {e : Expr} {es : List Expr} {st st' : σ}, P.source e → e.namesVar = false →
    P.Exprs st e.parts es st' → P.expr st e (e.withParts es) st'
  /-- A pointer to a cell is followed at once. -/
  follow : ∀ {pointer : Expr} {c : Cell} {st st' : σ}, P.expr st pointer (.addressOf c) st' →
    P.expr st (.read (.deref pointer)) (.read c) st' ∧
      P.expr st (.addressOf (.deref pointer)) (.addressOf c) st'
  inline : ∀ {e : Expr} {method : MethodRef} {es : List Expr} {st st' : σ}, P.source e →
    e.method? = some method → P.Exprs st e.parts es st' → P.fit st' →
      O.Ensures st' (w.inline method es) fun r => P.expr st e (r.getD (e.withParts es))

/-- The relations of the specification also hold where something is stored or emitted. -/
structure Walker.KeepsStmts (w : Walker M) (O : Outcomes M σ) (P : WalkSpec σ) : Prop
    extends w.Keeps O P where
  fit_of_fitStmt : ∀ {st : σ}, P.fitStmt st → P.fit st
  fitStmt_expr : ∀ {st st' : σ} {e e' : Expr}, P.expr st e e' st' → P.fitStmt st → P.fitStmt st'
  fitStmt_target : ∀ {st st' : σ} {c c' : Cell}, P.target st c c' st' → P.fitStmt st →
    P.fitStmt st'
  fitStmt_arm : ∀ {st st' : σ} {stmts D : List Stmt}, P.arm st stmts D st' → P.fitStmt st →
    P.fitStmt st'
  fitStmt_stmt : ∀ {st st' : σ} {s : Stmt}, P.stmt st s st' → P.fitStmt st → P.fitStmt st'
  madeOf : ∀ {s : Stmt}, P.sourceStmt s →
    s.MadeOf P.source P.sourceTarget fun stmts => ∀ s ∈ stmts, P.sourceStmt s
  storeVar : ∀ {id : VarId} {st : σ}, P.fitStmt st → P.sourceTarget (.var id) →
    GivesOr O.fine ((O.view st).resolveCell (.var id)) fun c => P.target st (.var id) c st
  /-- Storage that is no variable is found like something that is pointed at. -/
  source_address : ∀ {c : Cell}, P.sourceTarget c → (∀ id, c ≠ .var id) → P.source (.addressOf c)
  store : ∀ {c c' : Cell} {st st' : σ}, P.fitStmt st' → (∀ id, c ≠ .var id) →
    P.expr st (.addressOf c) (.addressOf c') st' → P.target st c c' st'
  /-- An expression without effects may be dropped. -/
  drop : ∀ {e e' : Expr} {st st' : σ}, P.fitStmt st' → P.expr st e e' st' →
    GivesOr O.fine (e'.effects (O.view st').vars) fun E => E.isPure = true → P.stmt st (.eval e) st'
  emit : ∀ {s s' : Stmt} {st st' : σ}, P.fitStmt st' → P.Left st s s' st' →
    O.Ensures st' (w.emit s') fun _ => P.stmt st s
  collect : ∀ {act : M Unit} {stmts : List Stmt} {st : σ}, P.fitStmt st →
    (∀ st, P.fitStmt st → O.Ensures st act fun _ => P.Stmts st stmts) →
      O.Ensures st (w.collect act) (P.arm st stmts)

end Keeps

/-! ## The walk over expressions -/

namespace Walker

variable {M : Type → Type} [Monad M] {σ : Type} {O : Outcomes M σ} {P : WalkSpec σ} {w : Walker M}

namespace Keeps

variable {st st' : σ} {e : Expr} {es : List Expr} {c c' : Cell}

/-- In every fit state, the walk over the expression is as specified. -/
def Walks (w : Walker M) (O : Outcomes M σ) (P : WalkSpec σ) (e : Expr) : Prop :=
  ∀ st, P.fit st → O.Ensures st (w.expr e) (P.expr st e)

/-- The state stays fit while expressions are walked over. -/
lemma fit_exprs (h : w.Keeps O P) {es' : List Expr} (hes : P.Exprs st es es' st')
    (hst : P.fit st) : P.fit st' := by
  induction hes with
  | nil st => exact hst
  | cons he _ ih => exact ih (h.fit_expr he hst)

/-- One of several operands, which may have to do without statements. -/
lemma operand (h : w.Keeps O P) (he : Walks w O P e) (hst : P.fit st) (waiting : Bool) :
    O.Ensures st (w.operand (w.expr e) waiting) fun p => P.expr st e p.1 := by
  have hwalk : ∀ muted : Bool, O.Ensures st
      (if muted then w.withoutStatements (w.expr e) else w.expr e) (P.expr st e) := by
    intro muted
    split
    · exact h.withoutStatements hst he
    · exact he st hst
  exact O.bind (h.look (O.seq (hwalk _) fun _ _ he' => O.bind (h.look (O.pure he'))))

/-- Operands are walked over from left to right. -/
lemma operands (h : w.Keeps O P) (hes : ∀ a ∈ es, Walks w O P a) (hst : P.fit st)
    (waiting : Bool) : O.Ensures st (w.operands es waiting) (P.Exprs st es) := by
  induction es generalizing st waiting with
  | nil => exact O.pure (.nil st)
  | cons e rest ih =>
    obtain ⟨he, hrest⟩ := List.forall_mem_cons.1 hes
    refine O.seq (h.operand he hst waiting) fun p st₁ hp => ?_
    refine O.seq (ih hrest (h.fit_expr hp hst) p.2) fun rest' st₂ hrest' => O.pure ?_
    exact .cons hp hrest'

/-- The cell is put together again, or it is what a pointer to it points at. -/
def Rebuilt (c : Cell) (es : List Expr) (c' : Cell) : Prop :=
  c' = c.withParts es ∨ ∃ pointer, c = .deref pointer ∧ es = [.addressOf c']

/-- The target of a pointer to a cell is the cell, and other pointers are followed by name. -/
lemma target_cases (e : Expr) :
    (∃ c, e = .addressOf c ∧ Pass.target e = c) ∨ Pass.target e = .deref e := by
  cases e with
  | addressOf c => exact .inl ⟨c, rfl, rfl⟩
  | _ => exact .inr rfl

/-- A cell that is no variable. -/
lemma cell (h : w.Keeps O P) (hc : ∀ id, c ≠ .var id) (hparts : ∀ a ∈ c.parts, Walks w O P a)
    (hst : P.fit st) (waiting : Bool) :
    O.Ensures st (w.cell c waiting) fun r st' =>
      ∃ es, P.Exprs st c.parts es st' ∧ Rebuilt c es r.1 := by
  cases c with
  | var id => exact absurd rfl (hc id)
  | static member => exact O.pure ⟨[], .nil st, .inl rfl⟩
  | field object member =>
    have hobject := hparts object (List.mem_singleton_self _)
    refine O.seq (h.operand hobject hst waiting) fun p st₁ hp => O.pure ?_
    exact ⟨[p.1], .cons hp (.nil st₁), .inl rfl⟩
  | element array index =>
    have harray := hparts array List.mem_cons_self
    have hindex := hparts index (List.mem_cons_of_mem _ (List.mem_singleton_self _))
    refine O.seq (h.operand harray hst waiting) fun p st₁ hp => ?_
    refine O.seq (h.operand hindex (h.fit_expr hp hst) p.2) fun q st₂ hq => O.pure ?_
    exact ⟨[p.1, q.1], .cons hp (.cons hq (.nil st₂)), .inl rfl⟩
  | deref pointer =>
    have hpointer := hparts pointer (List.mem_singleton_self _)
    refine O.seq (h.operand hpointer hst waiting) fun p st₁ hp => O.pure ?_
    refine ⟨[p.1], .cons hp (.nil st₁), ?_⟩
    rcases target_cases p.1 with ⟨c', hp', hc'⟩ | hc'
    · exact .inr ⟨pointer, rfl, by rw [hc', ← hp']⟩
    · exact .inl hc'

/-- A cell that is no variable names none. -/
lemma namesVar_read (hc : ∀ id, c ≠ .var id) :
    (Expr.read c).namesVar = false ∧ (Expr.addressOf c).namesVar = false := by
  cases c with
  | var id => exact absurd rfl (hc id)
  | _ => exact ⟨rfl, rfl⟩

/-- What became of a cell is read. -/
lemma read (h : w.Keeps O P) (hc : ∀ id, c ≠ .var id) (hsource : P.source (.read c))
    (hes : P.Exprs st c.parts es st') (hc' : Rebuilt c es c') :
    P.expr st (.read c) (.read c') st' := by
  rcases hc' with rfl | ⟨pointer, rfl, rfl⟩
  · exact h.node hsource (namesVar_read hc).1 hes
  · cases hes with
    | cons hpointer hnil =>
      cases hnil
      exact (h.follow hpointer).1

/-- What became of a cell is pointed at. -/
lemma address (h : w.Keeps O P) (hc : ∀ id, c ≠ .var id) (hsource : P.source (.addressOf c))
    (hes : P.Exprs st c.parts es st') (hc' : Rebuilt c es c') :
    P.expr st (.addressOf c) (.addressOf c') st' := by
  rcases hc' with rfl | ⟨pointer, rfl, rfl⟩
  · exact h.node hsource (namesVar_read hc).2 hes
  · cases hes with
    | cons hpointer hnil =>
      cases hnil
      exact (h.follow hpointer).2

/-- A call is treated after its operands, and left alone if nothing stands for it. -/
lemma inlined (h : w.Keeps O P) {method : MethodRef} {call : Expr} (hsource : P.source e)
    (hmethod : e.method? = some method) (hes : P.Exprs st e.parts es st') (hst : P.fit st)
    (hcall : e.withParts es = call) :
    O.Ensures st' (do return (← w.inline method es).getD call) (P.expr st e) := by
  subst hcall
  exact O.seq (h.inline hsource hmethod hes (h.fit_exprs hes hst)) fun _ _ hr => O.pure hr

/-- Reading a cell that is no variable. -/
lemma expr_read (hc : ∀ id, c ≠ .var id) :
    w.expr (.read c) = (do return .read (← w.cell c false).1) := by
  cases c with
  | var id => exact absurd rfl (hc id)
  | _ => rfl

/-- The walk over a node is as specified if the walks over its parts are. -/
lemma step (h : w.Keeps O P) (hparts : ∀ a ∈ e.parts, Walks w O P a) (hsource : P.source e) :
    Walks w O P e := by
  intro st hst
  cases e with
  | const value => exact O.pure (h.node hsource rfl (.nil st))
  | read c =>
    by_cases hc : ∀ id, c ≠ .var id
    · rw [expr_read hc]
      refine O.seq (h.cell hc hparts hst false) fun r st₁ hr => O.pure ?_
      obtain ⟨es, hes, hc'⟩ := hr
      exact h.read hc hsource hes hc'
    · obtain ⟨id, rfl⟩ := not_forall_not.1 hc
      exact h.look (h.readVar hst hsource)
  | addressOf c =>
    by_cases hc : ∀ id, c ≠ .var id
    · refine O.seq (h.cell hc hparts hst false) fun r st₁ hr => O.pure ?_
      obtain ⟨es, hes, hc'⟩ := hr
      exact h.address hc hsource hes hc'
    · obtain ⟨id, rfl⟩ := not_forall_not.1 hc
      have hcell : O.Ensures st (w.look fun S => S.resolveCell (.var id)) fun c =>
          P.expr st (.addressOf (.var id)) (.addressOf c) := h.look (h.pointTo hst hsource)
      exact O.bind (O.seq hcell fun c st' hc => O.pure (O.pure hc))
  | unary op operand =>
    obtain ⟨hoperand, -⟩ := List.forall_mem_cons.1 hparts
    refine O.seq (hoperand st hst) fun e' st₁ he' => O.pure ?_
    exact h.node hsource rfl (.cons he' (.nil st₁))
  | binary op left right =>
    obtain ⟨hleft, hparts⟩ := List.forall_mem_cons.1 hparts
    obtain ⟨hright, -⟩ := List.forall_mem_cons.1 hparts
    refine O.seq (h.operand hleft hst false) fun p st₁ hp => ?_
    refine O.seq (h.operand hright (h.fit_expr hp hst) p.2) fun q st₂ hq => O.pure ?_
    exact h.node hsource rfl (.cons hp (.cons hq (.nil st₂)))
  | logical op left right =>
    obtain ⟨hleft, hparts⟩ := List.forall_mem_cons.1 hparts
    obtain ⟨hright, -⟩ := List.forall_mem_cons.1 hparts
    refine O.seq (hleft st hst) fun left' st₁ hl => ?_
    refine O.seq (h.withoutStatements (h.fit_expr hl hst) hright) fun right' st₂ hr => O.pure ?_
    exact h.node hsource rfl (.cons hl (.cons hr (.nil st₂)))
  | conditional cond onTrue onFalse =>
    obtain ⟨hcond, hparts⟩ := List.forall_mem_cons.1 hparts
    obtain ⟨htrue, hparts⟩ := List.forall_mem_cons.1 hparts
    obtain ⟨hfalse, -⟩ := List.forall_mem_cons.1 hparts
    refine O.seq (hcond st hst) fun cond' st₁ hc => ?_
    have hst₁ := h.fit_expr hc hst
    refine O.seq (h.withoutStatements hst₁ htrue) fun onTrue' st₂ ht => ?_
    refine O.seq (h.withoutStatements (h.fit_expr ht hst₁) hfalse) fun onFalse' st₃ hf => O.pure ?_
    exact h.node hsource rfl (.cons hc (.cons ht (.cons hf (.nil st₃))))
  | call method args =>
    refine O.seq (h.operands hparts hst false) fun args' st₁ hargs => ?_
    exact h.inlined hsource rfl hargs hst rfl
  | callOn method receiver args =>
    obtain ⟨hreceiver, hargs⟩ := List.forall_mem_cons.1 hparts
    refine O.seq (h.operand hreceiver hst false) fun p st₁ hp => ?_
    refine O.seq (h.operands hargs (h.fit_expr hp hst) p.2) fun args' st₂ hargs' => ?_
    exact h.inlined hsource rfl (.cons hp hargs') hst rfl
  | construct method args =>
    refine O.seq (h.operands hparts hst false) fun args' st₁ hargs => ?_
    split
    · exact h.inlined hsource rfl hargs hst rfl
    · exact O.pure (h.node hsource rfl hargs)
  | marshalOut value =>
    obtain ⟨hvalue, -⟩ := List.forall_mem_cons.1 hparts
    refine O.seq (hvalue st hst) fun e' st₁ he' => O.pure ?_
    exact h.node hsource rfl (.cons he' (.nil st₁))
  | marshalIn value =>
    obtain ⟨hvalue, -⟩ := List.forall_mem_cons.1 hparts
    refine O.seq (hvalue st hst) fun e' st₁ he' => O.pure ?_
    exact h.node hsource rfl (.cons he' (.nil st₁))

/-- The walk over every expression is as specified. -/
theorem expr (h : w.Keeps O P) (hsource : P.source e) : Walks w O P e := by
  induction e using Expr.induct_parts with
  | step e ih => exact h.step (fun a ha => ih a ha (h.part hsource ha)) hsource

end Keeps

/-! ## The walk over statements -/

namespace KeepsStmts

variable {st st' : σ} {e : Expr} {c : Cell} {s : Stmt} {stmts : List Stmt}

/-- In every state that is fit for statements, the walk over the statement is as specified. -/
def Walks (w : Walker M) (O : Outcomes M σ) (P : WalkSpec σ) (s : Stmt) : Prop :=
  ∀ st, P.fitStmt st → O.Ensures st (w.stmt s) fun _ => P.stmt st s

/-- A state for statements is one for expressions. -/
lemma expr (h : w.KeepsStmts O P) (hsource : P.source e) (hst : P.fitStmt st) :
    O.Ensures st (w.expr e) (P.expr st e) :=
  h.toKeeps.expr hsource st (h.fit_of_fitStmt hst)

/-- Storage that something is stored into. -/
lemma target (h : w.KeepsStmts O P) (hsource : P.sourceTarget c) (hst : P.fitStmt st) :
    O.Ensures st (w.cell c false) fun r => P.target st c r.1 := by
  by_cases hc : ∀ id, c ≠ .var id
  · have haddress := h.source_address hsource hc
    have hparts : ∀ a ∈ c.parts, Keeps.Walks w O P a :=
      fun a ha => h.toKeeps.expr (h.part haddress ha)
    refine O.mono (h.toKeeps.cell hc hparts (h.fit_of_fitStmt hst) false) fun r st' hr => ?_
    obtain ⟨es, hes, hc'⟩ := hr
    have hexpr := h.address hc haddress hes hc'
    exact h.store (h.fitStmt_expr hexpr hst) hc hexpr
  · obtain ⟨id, rfl⟩ := not_forall_not.1 hc
    exact O.bind (O.mono (h.look (h.storeVar hst hsource)) fun c st' hc' => O.pure hc')

/-- The state stays fit for statements until what is left is emitted. -/
lemma fitStmt_left (h : w.KeepsStmts O P) {s' : Stmt} (hs : P.Left st s s' st')
    (hst : P.fitStmt st) : P.fitStmt st' := by
  cases hs with
  | eval he => exact h.fitStmt_expr he hst
  | assign hc he => exact h.fitStmt_expr he (h.fitStmt_target hc hst)
  | retNone => exact hst
  | ret he => exact h.fitStmt_expr he hst
  | raise he => exact h.fitStmt_expr he hst
  | branch hc ht hf => exact h.fitStmt_arm hf (h.fitStmt_arm ht (h.fitStmt_expr hc hst))

/-- What is left of a statement is emitted. -/
lemma emitted (h : w.KeepsStmts O P) {s' : Stmt} (hst : P.fitStmt st) (hs : P.Left st s s' st') :
    O.Ensures st' (w.emit s') fun _ => P.stmt st s :=
  h.emit (h.fitStmt_left hs hst) hs

/-- Statements are walked over in order. -/
lemma block_of (h : w.KeepsStmts O P) (hstmts : ∀ s ∈ stmts, Walks w O P s)
    (hst : P.fitStmt st) : O.Ensures st (w.block stmts) fun _ => P.Stmts st stmts := by
  induction stmts generalizing st with
  | nil => exact O.pure (.nil st)
  | cons s rest ih =>
    obtain ⟨hs, hrest⟩ := List.forall_mem_cons.1 hstmts
    refine O.seq (hs st hst) fun _ st₁ hs' => ?_
    exact O.mono (ih hrest (h.fitStmt_stmt hs' hst)) fun _ st₂ hrest' => .cons hs' hrest'

/-- A block with a buffer of its own. -/
lemma arm (h : w.KeepsStmts O P) (hstmts : ∀ s ∈ stmts, Walks w O P s) (hst : P.fitStmt st) :
    O.Ensures st (w.collect (w.block stmts)) (P.arm st stmts) :=
  h.collect hst fun _ hst => h.block_of hstmts hst

mutual

/-- The walk over every statement is as specified. -/
theorem stmt (h : w.KeepsStmts O P) : ∀ s, P.sourceStmt s → Walks w O P s
  | .eval e, hs, st, hst => by
    refine O.seq (h.expr (h.madeOf hs) hst) fun e' st₁ he' => ?_
    have hst₁ := h.fitStmt_expr he' hst
    have hdrop := h.drop hst₁ he'
    have hlook : O.Ensures st₁ (w.look fun S => e'.effects S.vars) fun E st' =>
        P.expr st e e' st' ∧ (E.isPure = true → P.stmt st (.eval e) st') :=
      h.look (hdrop.mono fun _ hE => ⟨he', hE⟩)
    refine O.seq hlook fun E st₂ hE => ?_
    split
    · exact h.emitted hst (.eval hE.1)
    · rename_i hpure
      exact O.pure (hE.2 (by simpa using hpure))
  | .assign c e, hs, st, hst => by
    obtain ⟨hc, he⟩ := h.madeOf hs
    refine O.seq (h.target hc hst) fun r st₁ hr => ?_
    have hst₁ := h.fit_of_fitStmt (h.fitStmt_target hr hst)
    refine O.seq (h.toKeeps.operand (h.toKeeps.expr he) hst₁ r.2) fun p st₂ hp => ?_
    exact h.emitted hst (.assign hr hp)
  | .ret none, _, st, hst => h.emitted hst (.retNone st)
  | .ret (some e), hs, st, hst =>
    O.seq (h.expr (h.madeOf hs) hst) fun _ _ he' => h.emitted hst (.ret he')
  | .raise e, hs, st, hst =>
    O.seq (h.expr (h.madeOf hs) hst) fun _ _ he' => h.emitted hst (.raise he')
  | .branch cond onTrue onFalse, hs, st, hst => by
    obtain ⟨hcond, htrue, hfalse⟩ := h.madeOf hs
    refine O.seq (h.expr hcond hst) fun cond' st₁ hc => ?_
    have hst₁ := h.fitStmt_expr hc hst
    refine O.seq (h.arm (h.allStmts onTrue htrue) hst₁) fun onTrue' st₂ ht => ?_
    have hst₂ := h.fitStmt_arm ht hst₁
    refine O.seq (h.arm (h.allStmts onFalse hfalse) hst₂) fun onFalse' st₃ hf => ?_
    exact h.emitted hst (.branch hc ht hf)

/-- The same for each statement of a list. -/
theorem allStmts (h : w.KeepsStmts O P) :
    ∀ stmts : List Stmt, (∀ s ∈ stmts, P.sourceStmt s) → ∀ s ∈ stmts, Walks w O P s
  | [], _ => fun _ hs => absurd hs (List.not_mem_nil)
  | s :: rest, hsource => by
    obtain ⟨hs, hrest⟩ := List.forall_mem_cons.1 hsource
    exact List.forall_mem_cons.2 ⟨h.stmt s hs, h.allStmts rest hrest⟩

end

/-- The walk over every block is as specified. -/
theorem block (h : w.KeepsStmts O P) (hsource : ∀ s ∈ stmts, P.sourceStmt s)
    (hst : P.fitStmt st) : O.Ensures st (w.block stmts) fun _ => P.Stmts st stmts :=
  h.block_of (h.allStmts stmts hsource) hst

end KeepsStmts

end Walker

end Inliner
