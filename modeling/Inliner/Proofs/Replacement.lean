import Inliner.Proofs.Evaluation
import Mathlib.Data.List.Basic

/-!
# Replacing variables

`Expr.subst` replaces the variables that an expression reads by other expressions. Nodes that do not
read a variable keep their shape, so the two expressions are evaluated in step: `eval_related`
carries a relation between computations from the nodes, and from the variables and what replaces
them, to the whole expressions. Many facts about two meanings of an expression, or about the
meanings of an expression before and after replacement, are instances of it.
-/

namespace Inliner

/-! ## Replacing variables -/

mutual

/-- The cell with the variables that are read below it replaced. -/
def Cell.subst (σ : VarId → Expr) : Cell → Cell
  | .var id => .var id
  | .field object member => .field (object.subst σ) member
  | .static member => .static member
  | .element array index => .element (array.subst σ) (index.subst σ)
  | .deref pointer => .deref (pointer.subst σ)

/-- The expression with the variables that it reads replaced. -/
def Expr.subst (σ : VarId → Expr) : Expr → Expr
  | .const value => .const value
  | .read (.var id) => σ id
  | .read cell => .read (cell.subst σ)
  | .addressOf cell => .addressOf (cell.subst σ)
  | .unary op operand => .unary op (operand.subst σ)
  | .binary op left right => .binary op (left.subst σ) (right.subst σ)
  | .logical op left right => .logical op (left.subst σ) (right.subst σ)
  | .conditional cond onTrue onFalse =>
    .conditional (cond.subst σ) (onTrue.subst σ) (onFalse.subst σ)
  | .call method args => .call method (Expr.substAll σ args)
  | .callOn method receiver args => .callOn method (receiver.subst σ) (Expr.substAll σ args)
  | .construct method args => .construct method (Expr.substAll σ args)
  | .marshalOut value => .marshalOut (value.subst σ)
  | .marshalIn value => .marshalIn (value.subst σ)

/-- The expressions with the variables that they read replaced. -/
def Expr.substAll (σ : VarId → Expr) : List Expr → List Expr
  | [] => []
  | e :: rest => e.subst σ :: Expr.substAll σ rest

end

/-- The parts of a cell whose parts were replaced are the new ones. -/
lemma Cell.parts_withParts {c : Cell} {es : List Expr} (h : es.length = c.parts.length) :
    (c.withParts es).parts = es := by
  cases c with
  | var id =>
    obtain rfl := List.length_eq_zero_iff.1 h
    rfl
  | static member =>
    obtain rfl := List.length_eq_zero_iff.1 h
    rfl
  | field object member =>
    obtain ⟨a, rfl⟩ := List.length_eq_one_iff.1 h
    rfl
  | deref pointer =>
    obtain ⟨a, rfl⟩ := List.length_eq_one_iff.1 h
    rfl
  | element array index =>
    obtain ⟨a, b, rfl⟩ := List.length_eq_two.1 h
    rfl

namespace Expr

/-- The parts of a node whose parts were replaced are the new ones. -/
lemma parts_withParts {e : Expr} {es : List Expr} (h : es.length = e.parts.length) :
    (e.withParts es).parts = es := by
  cases e with
  | const value =>
    obtain rfl := List.length_eq_zero_iff.1 h
    rfl
  | read c => exact Cell.parts_withParts h
  | addressOf c => exact Cell.parts_withParts h
  | unary op operand =>
    obtain ⟨a, rfl⟩ := List.length_eq_one_iff.1 h
    rfl
  | binary op left right =>
    obtain ⟨a, b, rfl⟩ := List.length_eq_two.1 h
    rfl
  | logical op left right =>
    obtain ⟨a, b, rfl⟩ := List.length_eq_two.1 h
    rfl
  | conditional cond onTrue onFalse =>
    obtain ⟨a, b, c, rfl⟩ := List.length_eq_three.1 h
    rfl
  | call method args => rfl
  | callOn method receiver args =>
    obtain ⟨a, es, rfl⟩ := List.exists_cons_of_length_eq_add_one h
    rfl
  | construct method args => rfl
  | marshalOut value =>
    obtain ⟨a, rfl⟩ := List.length_eq_one_iff.1 h
    rfl
  | marshalIn value =>
    obtain ⟨a, rfl⟩ := List.length_eq_one_iff.1 h
    rfl

/-- A node whose parts are replaced by themselves does not change. -/
lemma withParts_parts (e : Expr) : e.withParts e.parts = e := by
  cases e with
  | read c => cases c <;> rfl
  | addressOf c => cases c <;> rfl
  | _ => rfl

/-- Replacing parts keeps strict nodes strict. -/
lemma isStrict_withParts (e : Expr) (es : List Expr) : (e.withParts es).isStrict = e.isStrict := by
  unfold withParts
  split <;> rfl

/-- Replacing parts does not change whether a node reads a variable. -/
lemma variableRead?_withParts (e : Expr) (es : List Expr) :
    (e.withParts es).variableRead? = e.variableRead? := by
  cases e with
  | read c =>
    change (read (c.withParts es)).variableRead? = _
    unfold Cell.withParts
    split <;> rfl
  | _ =>
    unfold withParts
    split <;> simp_all [variableRead?]

/-- The only node that reads a given variable. -/
lemma eq_readVar {e : Expr} {id : VarId} (h : e.variableRead? = some id) : e = .readVar id := by
  unfold variableRead? at h
  split at h
  · cases h
    rfl
  · cases h

variable {σ : VarId → Expr}

lemma substAll_eq_map (es : List Expr) : substAll σ es = es.map (subst σ) := by
  induction es with
  | nil => rfl
  | cons e es ih => rw [substAll, ih, List.map_cons]

/-- A node that does not read a variable keeps its shape; only its parts are replaced. -/
lemma subst_eq_withParts {e : Expr} (he : e.variableRead? = none) :
    e.subst σ = e.withParts (e.parts.map (subst σ)) := by
  cases e with
  | read c =>
    cases c with
    | var id => cases he
    | _ => simp [subst, Cell.subst, parts, withParts, Cell.parts, Cell.withParts]
  | addressOf c => cases c <;> simp [subst, Cell.subst, parts, withParts, Cell.parts, Cell.withParts]
  | _ => simp [subst, parts, withParts, substAll_eq_map]

/-- The parts of a node with variables replaced, unless the node reads a variable itself. -/
lemma parts_subst {e : Expr} (he : e.variableRead? = none) :
    (e.subst σ).parts = e.parts.map (subst σ) := by
  rw [subst_eq_withParts he, parts_withParts (by simp)]

/-- An expression in which every variable stands for itself. -/
lemma subst_readVar (e : Expr) : e.subst readVar = e := by
  induction e using induct_parts with
  | step e ih =>
    cases hread : e.variableRead? with
    | some v =>
      obtain rfl := eq_readVar hread
      rfl
    | none =>
      have hparts : e.parts.map (subst readVar) = e.parts :=
        (List.map_congr_left ih).trans (List.map_id' _)
      rw [subst_eq_withParts hread, hparts, withParts_parts]

end Expr

/-! ## Meanings in step -/

namespace Evaluator

variable {M N : Type → Type} {V : Type} [Monad M] [Monad N] [LawfulMonad M] [LawfulMonad N]
  {ev : Evaluator M V} {ev' : Evaluator N V} {R : ∀ {A : Type}, M A → N A → Prop}

omit [LawfulMonad M] [LawfulMonad N] in
/-- Expressions that are related one by one are related when they are evaluated from left to
right. -/
lemma evalAll_related (hpure : ∀ {A : Type} (a : A), R (pure a : M A) (pure a : N A))
    (hbind : ∀ {A B : Type} {f : M A} {g : N A} {k : A → M B} {l : A → N B}, R f g →
      (∀ a, R (k a) (l a)) → R (f >>= k) (g >>= l)) {σ : VarId → Expr} {es : List Expr}
    (hes : ∀ e ∈ es, R (ev.eval e) (ev'.eval (e.subst σ))) :
    R (ev.evalAll es) (ev'.evalAll (es.map (Expr.subst σ))) := by
  induction es with
  | nil =>
    rw [List.map_nil, evalAll_nil, evalAll_nil]
    exact hpure _
  | cons e rest ih =>
    rw [List.map_cons, evalAll_cons, evalAll_cons]
    refine hbind (hes e (by simp)) fun v => hbind (ih fun a ha => hes a (by simp [ha])) fun vs => ?_
    exact hpure _

/-- Two meanings are related on an expression and the same expression with variables replaced, if
they are on the nodes that correspond, and on every variable read and what replaces it. -/
lemma eval_related (hpure : ∀ {A : Type} (a : A), R (pure a : M A) (pure a : N A))
    (hbind : ∀ {A B : Type} {f : M A} {g : N A} {k : A → M B} {l : A → N B}, R f g →
      (∀ a, R (k a) (l a)) → R (f >>= k) (g >>= l)) (htruth : ev.truth = ev'.truth)
    {σ : VarId → Expr} (e : Expr)
    (hnode : ∀ n, n.IsNodeOf e → n.variableRead? = none →
      ∀ vs, R (ev.node n vs) (ev'.node (n.subst σ) vs))
    (hvar : ∀ id, (Expr.readVar id).IsNodeOf e → R (ev.var id) (ev'.eval (σ id))) :
    R (ev.eval e) (ev'.eval (e.subst σ)) := by
  induction e using Expr.induct with
  | strict e he ih =>
    cases hread : e.variableRead? with
    | some v =>
      obtain rfl := Expr.eq_readVar hread
      rw [eval, Expr.subst]
      exact hvar v .self
    | none =>
      have hstrict : (e.subst σ).isStrict = true := by
        rw [Expr.subst_eq_withParts hread, Expr.isStrict_withParts, he]
      rw [eval_strict _ he, eval_strict _ hstrict, Expr.parts_subst hread]
      refine hbind (evalAll_related hpure hbind fun a ha => ?_) fun vs => hnode e .self hread vs
      exact ih a ha (fun n hn => hnode n (.part ha hn)) fun id hid => hvar id (.part ha hid)
  | logical op left right ihl ihr =>
    have hl := ihl (fun n hn => hnode n (.part (by simp [Expr.parts]) hn))
      fun id hid => hvar id (.part (by simp [Expr.parts]) hid)
    have hr := ihr (fun n hn => hnode n (.part (by simp [Expr.parts]) hn))
      fun id hid => hvar id (.part (by simp [Expr.parts]) hid)
    have hself := hnode _ .self rfl
    rw [Expr.subst] at hself ⊢
    rw [eval_logical, eval_logical, htruth]
    refine hbind hl fun a => ?_
    split
    · exact hself [a]
    · exact hbind hr fun b => hself [a, b]
  | conditional cond onTrue onFalse ihc iht ihf =>
    have hc := ihc (fun n hn => hnode n (.part (by simp [Expr.parts]) hn))
      fun id hid => hvar id (.part (by simp [Expr.parts]) hid)
    have ht := iht (fun n hn => hnode n (.part (by simp [Expr.parts]) hn))
      fun id hid => hvar id (.part (by simp [Expr.parts]) hid)
    have hf := ihf (fun n hn => hnode n (.part (by simp [Expr.parts]) hn))
      fun id hid => hvar id (.part (by simp [Expr.parts]) hid)
    have hself := hnode _ .self rfl
    rw [Expr.subst] at hself ⊢
    rw [eval_conditional, eval_conditional, htruth]
    refine hbind hc fun a => ?_
    split
    · exact hbind ht fun b => hself [a, b]
    · exact hbind hf fun b => hself [a, b]

end Evaluator

end Inliner
