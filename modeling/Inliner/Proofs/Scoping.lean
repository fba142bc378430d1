import Inliner.Proofs.Evaluation
import Inliner.Proofs.Slots

/-!
# Well-scoped terms

A term is checked node by node: `Expr.allNodes p` says that every node of an expression passes the
test `p`, and `Stmt.allNodes p` says the same of a statement, the cell that an assignment stores
into counting as if it was read. Two tests are of interest, `inScope`, which asks for declared
variables, and `plain`, which forbids pointers as well.

What the analyses compute of a term with declared variables only is never a fault
(`exists_effects`, `Stmt.exists_effects`).
-/

namespace Inliner

/-! ## Tests of nodes -/

mutual

/-- Every node below the cell passes the test. -/
def Cell.allNodes (p : Expr → Bool) : Cell → Bool
  | .var _ => true
  | .field object _ => object.allNodes p
  | .static _ => true
  | .element array index => array.allNodes p && index.allNodes p
  | .deref pointer => pointer.allNodes p

/-- Every node of the expression passes the test. -/
def Expr.allNodes (p : Expr → Bool) : Expr → Bool
  | .const value => p (.const value)
  | .read cell => p (.read cell) && cell.allNodes p
  | .addressOf cell => p (.addressOf cell) && cell.allNodes p
  | .unary op operand => p (.unary op operand) && operand.allNodes p
  | .binary op left right => p (.binary op left right) && (left.allNodes p && right.allNodes p)
  | .logical op left right => p (.logical op left right) && (left.allNodes p && right.allNodes p)
  | .conditional cond onTrue onFalse =>
    p (.conditional cond onTrue onFalse) &&
      (cond.allNodes p && (onTrue.allNodes p && onFalse.allNodes p))
  | .call method args => p (.call method args) && Expr.everyNode p args
  | .callOn method receiver args =>
    p (.callOn method receiver args) && (receiver.allNodes p && Expr.everyNode p args)
  | .construct method args => p (.construct method args) && Expr.everyNode p args
  | .marshalOut value => p (.marshalOut value) && value.allNodes p
  | .marshalIn value => p (.marshalIn value) && value.allNodes p

/-- Every node of the expressions passes the test. -/
def Expr.everyNode (p : Expr → Bool) : List Expr → Bool
  | [] => true
  | e :: rest => e.allNodes p && Expr.everyNode p rest

end

mutual

/-- Every node of the statement passes the test. -/
def Stmt.allNodes (p : Expr → Bool) : Stmt → Bool
  | .eval value => value.allNodes p
  | .assign target value => (Expr.read target).allNodes p && value.allNodes p
  | .ret none => true
  | .ret (some value) => value.allNodes p
  | .raise exception => exception.allNodes p
  | .branch cond onTrue onFalse =>
    cond.allNodes p && (Stmt.blockNodes p onTrue && Stmt.blockNodes p onFalse)

/-- Every node of the block passes the test. -/
def Stmt.blockNodes (p : Expr → Bool) : List Stmt → Bool
  | [] => true
  | s :: rest => s.allNodes p && Stmt.blockNodes p rest

end

namespace Expr

variable {p q : Expr → Bool}

/-- What holds of all nodes of a list holds of those of each member. -/
lemma everyNode_iff {es : List Expr} :
    everyNode p es = true ↔ ∀ e ∈ es, e.allNodes p = true := by
  induction es with
  | nil => simp [everyNode]
  | cons e es ih => simp [everyNode, ih]

/-- An expression passes a test if its outermost node and its parts do. -/
lemma allNodes_iff {e : Expr} :
    e.allNodes p = true ↔ p e = true ∧ ∀ a ∈ e.parts, a.allNodes p = true := by
  have hcell : ∀ c : Cell, c.allNodes p = true ↔ ∀ a ∈ c.parts, a.allNodes p = true := by
    intro c
    cases c <;> simp [Cell.allNodes, Cell.parts]
  cases e <;> simp [allNodes, parts, hcell, everyNode_iff]

/-- A test that is passed by an expression is passed by the nodes that occur in it. -/
lemma allNodes_of_isNodeOf {n e : Expr} (h : e.allNodes p = true) (hn : n.IsNodeOf e) :
    p n = true := by
  induction hn with
  | self => exact (allNodes_iff.1 h).1
  | part ha _ ih => exact ih ((allNodes_iff.1 h).2 _ ha)

/-- A weaker test is passed too. -/
lemma allNodes_mono (hpq : ∀ n, p n = true → q n = true) {e : Expr} (h : e.allNodes p = true) :
    e.allNodes q = true := by
  induction e using induct_parts with
  | step e ih =>
    obtain ⟨hself, hparts⟩ := allNodes_iff.1 h
    exact allNodes_iff.2 ⟨hpq e hself, fun a ha => ih a ha (hparts a ha)⟩

end Expr

namespace Stmt

variable {p q : Expr → Bool}

/-- What holds of all nodes of a block holds of those of each statement. -/
lemma blockNodes_iff {stmts : List Stmt} :
    blockNodes p stmts = true ↔ ∀ s ∈ stmts, s.allNodes p = true := by
  induction stmts with
  | nil => simp [blockNodes]
  | cons s stmts ih => simp [blockNodes, ih]

/-- The nodes of a block are those of its parts. -/
lemma blockNodes_append (xs ys : List Stmt) :
    blockNodes p (xs ++ ys) = (blockNodes p xs && blockNodes p ys) := by
  induction xs with
  | nil => simp [blockNodes]
  | cons s xs ih => simp [blockNodes, ih, Bool.and_assoc]

mutual

/-- A weaker test is passed too. -/
lemma allNodes_mono (hpq : ∀ n, p n = true → q n = true) {s : Stmt} (h : s.allNodes p = true) :
    s.allNodes q = true := by
  cases s with
  | eval value => exact Expr.allNodes_mono hpq h
  | assign target value =>
    simp only [allNodes, Bool.and_eq_true] at h ⊢
    exact ⟨Expr.allNodes_mono hpq h.1, Expr.allNodes_mono hpq h.2⟩
  | ret value =>
    cases value with
    | none => rfl
    | some value => exact Expr.allNodes_mono hpq h
  | raise exception => exact Expr.allNodes_mono hpq h
  | branch cond onTrue onFalse =>
    simp only [allNodes, Bool.and_eq_true] at h ⊢
    exact ⟨Expr.allNodes_mono hpq h.1, blockNodes_mono hpq h.2.1, blockNodes_mono hpq h.2.2⟩

/-- A weaker test is passed too. -/
lemma blockNodes_mono (hpq : ∀ n, p n = true → q n = true) {stmts : List Stmt}
    (h : blockNodes p stmts = true) : blockNodes q stmts = true := by
  cases stmts with
  | nil => rfl
  | cons s rest =>
    simp only [blockNodes, Bool.and_eq_true] at h ⊢
    exact ⟨allNodes_mono hpq h.1, blockNodes_mono hpq h.2⟩

end

end Stmt

/-! ## Declared variables and pointers -/

/-- The variable that the node itself names, if any, is among the first `n` ones. -/
def inScope (n : Nat) : Expr → Bool
  | .read (.var id) => id.index < n
  | .addressOf (.var id) => id.index < n
  | _ => true

/-- The node neither makes a pointer nor reads through one. -/
def noPointer : Expr → Bool
  | .addressOf _ => false
  | .read (.deref _) => false
  | _ => true

/-- The node names no other than the first `n` variables, and has nothing to do with pointers. -/
def plain (n : Nat) (e : Expr) : Bool :=
  inScope n e && noPointer e

/-- More variables may be declared. -/
lemma inScope_mono {n n' : Nat} (h : n ≤ n') {e : Expr} (he : inScope n e = true) :
    inScope n' e = true := by
  unfold inScope at he ⊢
  split <;> simp_all <;> omega

/-- More variables may be declared for plain nodes, too. -/
lemma plain_mono {n n' : Nat} (h : n ≤ n') {e : Expr} (he : plain n e = true) :
    plain n' e = true := by
  unfold plain at he ⊢
  rw [Bool.and_eq_true] at he ⊢
  exact ⟨inScope_mono h he.1, he.2⟩

/-- Plain nodes are in scope. -/
lemma inScope_of_plain {n : Nat} {e : Expr} (he : plain n e = true) : inScope n e = true := by
  unfold plain at he
  rw [Bool.and_eq_true] at he
  exact he.1

/-- A variable in scope is declared. -/
lemma VarTable.exists_get? {t : VarTable} {id : VarId} (h : id.index < t.size) :
    ∃ v, t.get? id = some v :=
  ⟨_, List.getElem?_eq_getElem h⟩

/-! ## Pointer targets and effects exist -/

namespace PointsTo

/-- Pointer targets of one frame have a join, in the same frame. -/
lemma exists_joined {f : Frame} {p q : PointsTo} (hp : p.frame = f) (hq : q.frame = f) :
    ∃ r, p.joined q = .ok r ∧ r.frame = f := by
  have hargs : p.args.capacity = q.args.capacity := by
    have := hp.trans hq.symm
    exact (Frame.mk.inj this).1
  have hlocals : p.locals.capacity = q.locals.capacity := by
    have := hp.trans hq.symm
    exact (Frame.mk.inj this).2
  have hjoin : Domain.join p q =
      some ⟨p.args.union q.args hargs, p.locals.union q.locals hlocals, p.heap || q.heap⟩ := by
    rw [join_eq_some]
    refine ⟨?_, ?_, rfl⟩
    · simp [Domain.join, SlotSet.union?, hargs]
    · simp [Domain.join, SlotSet.union?, hlocals]
  refine ⟨_, by rw [joined, hjoin], ?_⟩
  rw [← hp]
  rfl

/-- A slot of the frame is the target of a pointer. -/
lemma exists_toSlot {f : Frame} {slot : Slot} (h : f.Has slot) :
    ∃ r, toSlot f slot = .ok r ∧ r.frame = f := by
  cases slot with
  | argument i =>
    have hset : SlotSet.singleton? f.args i = some ((SlotSet.empty f.args).insert i h) := by
      simp only [SlotSet.singleton?, SlotSet.insert?]
      exact dif_pos h
    refine ⟨{ bottom f with args := (SlotSet.empty f.args).insert i h }, ?_, rfl⟩
    simp [toSlot, toSlot?, hset]
  | localVar i =>
    have hset : SlotSet.singleton? f.locals i = some ((SlotSet.empty f.locals).insert i h) := by
      simp only [SlotSet.singleton?, SlotSet.insert?]
      exact dif_pos h
    refine ⟨{ bottom f with locals := (SlotSet.empty f.locals).insert i h }, ?_, rfl⟩
    simp [toSlot, toSlot?, hset]

end PointsTo

/-- The step is not at fault. -/
def StepOk (step : Step) : Prop :=
  ∃ E, step = .ok E

section Exist

variable {vars : VarTable}

/-- What a declared variable may point at belongs to the frame. -/
lemma frame_variablePointsTo (v : Variable) : (v.pointsTo vars.frame).frame = vars.frame := by
  unfold Variable.pointsTo
  split
  · split <;> rfl
  · rfl

/-- Expressions with declared variables have pointer targets, which belong to the frame. -/
lemma Expr.exists_pointsTo {e : Expr} (h : e.allNodes (inScope vars.size) = true) :
    ∃ p, e.pointsTo vars = .ok p ∧ p.frame = vars.frame := by
  induction e using Expr.induct_parts with
  | step e ih =>
    obtain ⟨hself, hparts⟩ := allNodes_iff.1 h
    cases e with
    | read c =>
      cases c with
      | var id =>
        obtain ⟨v, hv⟩ := VarTable.exists_get? (t := vars) (by simpa [inScope] using hself)
        refine ⟨v.pointsTo vars.frame, ?_, frame_variablePointsTo v⟩
        simp [pointsTo, VarTable.get, hv, Except.map]
      | _ => exact ⟨_, rfl, rfl⟩
    | addressOf c =>
      cases c with
      | var id =>
        obtain ⟨v, hv⟩ := VarTable.exists_get? (t := vars) (by simpa [inScope] using hself)
        obtain ⟨r, hr, hframe⟩ := PointsTo.exists_toSlot (VarTable.has_slotOf hv)
        refine ⟨r, ?_, hframe⟩
        rw [pointsTo, Cell.addressPointsTo, VarTable.slot_eq_ok hv]
        exact hr
      | deref pointer =>
        have hmem : pointer ∈ (addressOf (.deref pointer)).parts := by simp [parts, Cell.parts]
        exact ih pointer hmem (hparts pointer hmem)
      | _ => exact ⟨_, rfl, rfl⟩
    | conditional cond onTrue onFalse =>
      obtain ⟨p, hp, hpframe⟩ := ih onTrue (by simp [parts]) (hparts _ (by simp [parts]))
      obtain ⟨q, hq, hqframe⟩ := ih onFalse (by simp [parts]) (hparts _ (by simp [parts]))
      obtain ⟨r, hr, hframe⟩ := PointsTo.exists_joined hpframe hqframe
      refine ⟨r, ?_, hframe⟩
      rw [pointsTo, hp, hq]
      exact hr
    | marshalOut value => exact ih value (by simp [parts]) (hparts _ (by simp [parts]))
    | _ => exact ⟨_, rfl, rfl⟩

/-- Accessing a cell with declared variables is not at fault. -/
lemma Cell.stepOk_access {c : Cell} (h : (Expr.read c).allNodes (inScope vars.size) = true)
    (a : Access) : ∀ step ∈ c.accessSteps vars a, StepOk step := by
  obtain ⟨hself, hparts⟩ := Expr.allNodes_iff.1 h
  intro step hstep
  cases c with
  | var id =>
    obtain ⟨v, hv⟩ := VarTable.exists_get? (t := vars) (by simpa [inScope] using hself)
    simp only [accessSteps, List.mem_singleton, VarTable.slot_eq_ok hv] at hstep
    exact ⟨_, hstep⟩
  | deref pointer =>
    obtain ⟨p, hp, -⟩ := Expr.exists_pointsTo (hparts pointer (by simp [Expr.parts, Cell.parts]))
    simp only [accessSteps, List.mem_singleton, hp] at hstep
    exact ⟨_, hstep⟩
  | _ =>
    simp only [accessSteps, List.mem_singleton] at hstep
    exact ⟨_, hstep⟩

/-- An operation that is not looked into is not at fault. -/
lemma Expr.stepOk_unknown {es : List Expr}
    (h : ∀ e ∈ es, e.allNodes (inScope vars.size) = true) :
    ∀ step ∈ unknownSteps vars es, StepOk step := by
  intro step hstep
  rcases List.mem_append.1 hstep with hstep | hstep
  · obtain ⟨e, he, rfl⟩ := List.mem_map.1 hstep
    obtain ⟨p, hp, -⟩ := exists_pointsTo (h e he)
    exact ⟨p.writeEffects, by rw [hp]; rfl⟩
  · exact ⟨_, List.mem_singleton.1 hstep⟩

/-- The operation of a node with declared variables is not at fault. -/
lemma Expr.stepOk_own {e : Expr} (h : e.allNodes (inScope vars.size) = true) :
    ∀ step ∈ e.ownSteps vars, StepOk step := by
  have hparts := (allNodes_iff.1 h).2
  cases e with
  | read c => exact Cell.stepOk_access h .read
  | binary op left right =>
    intro step hstep
    simp only [ownSteps] at hstep
    split at hstep
    · exact ⟨_, List.mem_singleton.1 hstep⟩
    · simp at hstep
  | call method args => exact stepOk_unknown hparts
  | callOn method receiver args => exact stepOk_unknown hparts
  | construct method args => exact stepOk_unknown hparts
  | marshalOut value => exact stepOk_unknown hparts
  | marshalIn value => exact stepOk_unknown hparts
  | _ => simp [ownSteps]

/-- Evaluating an expression with declared variables is not at fault. -/
lemma Expr.stepOk_steps {e : Expr} (h : e.allNodes (inScope vars.size) = true) :
    ∀ step ∈ e.steps vars, StepOk step := by
  induction e using Expr.induct_parts with
  | step e ih =>
    obtain ⟨-, hparts⟩ := allNodes_iff.1 h
    have hall : ∀ es : List Expr, (∀ a ∈ es, a ∈ e.parts) →
        ∀ step ∈ allSteps vars es, StepOk step := by
      intro es hes step hstep
      induction es with
      | nil => simp [allSteps] at hstep
      | cons a rest ihrest =>
        rw [allSteps] at hstep
        rcases List.mem_append.1 hstep with hstep | hstep
        · exact ih a (hes a (by simp)) (hparts a (hes a (by simp))) step hstep
        · exact ihrest (fun b hb => hes b (by simp [hb])) hstep
    intro step hstep
    rw [steps_eq] at hstep
    rcases List.mem_append.1 hstep with hstep | hstep
    · exact hall e.parts (fun a ha => ha) step hstep
    · exact stepOk_own h step hstep

/-- The effects of an expression with declared variables. -/
lemma Expr.exists_effects {e : Expr} (h : e.allNodes (inScope vars.size) = true) :
    ∃ E, e.effects vars = .ok E :=
  Effects.exists_ofSteps (stepOk_steps h)

/-- Storing into a cell with declared variables is not at fault. -/
lemma Cell.stepOk_steps {c : Cell} (h : (Expr.read c).allNodes (inScope vars.size) = true)
    (a : Access) : ∀ step ∈ c.steps vars a, StepOk step := by
  intro step hstep
  rcases List.mem_append.1 hstep with hstep | hstep
  · refine Expr.stepOk_steps h step ?_
    rw [Expr.steps]
    exact List.mem_append_left _ hstep
  · exact stepOk_access h a step hstep

mutual

/-- Executing a statement with declared variables is not at fault. -/
lemma Stmt.stepOk_steps {s : Stmt} (h : s.allNodes (inScope vars.size) = true) :
    ∀ step ∈ s.steps vars, StepOk step := by
  cases s with
  | eval value => exact Expr.stepOk_steps h
  | assign target value =>
    simp only [allNodes, Bool.and_eq_true] at h
    intro step hstep
    rcases List.mem_append.1 hstep with hstep | hstep
    · exact Expr.stepOk_steps h.2 step hstep
    · exact Cell.stepOk_steps h.1 .write step hstep
  | ret value =>
    cases value with
    | none => simp [steps]
    | some value => exact Expr.stepOk_steps h
  | raise exception =>
    intro step hstep
    rcases List.mem_append.1 hstep with hstep | hstep
    · exact Expr.stepOk_steps h step hstep
    · exact ⟨_, List.mem_singleton.1 hstep⟩
  | branch cond onTrue onFalse =>
    simp only [allNodes, Bool.and_eq_true] at h
    intro step hstep
    rw [steps, List.append_assoc] at hstep
    rcases List.mem_append.1 hstep with hstep | hstep
    · exact Expr.stepOk_steps h.1 step hstep
    · rcases List.mem_append.1 hstep with hstep | hstep
      · exact Stmt.stepOk_blockSteps h.2.1 step hstep
      · exact Stmt.stepOk_blockSteps h.2.2 step hstep

/-- Executing a block with declared variables is not at fault. -/
lemma Stmt.stepOk_blockSteps {stmts : List Stmt}
    (h : Stmt.blockNodes (inScope vars.size) stmts = true) :
    ∀ step ∈ Stmt.blockSteps vars stmts, StepOk step := by
  cases stmts with
  | nil => simp [blockSteps]
  | cons s rest =>
    simp only [blockNodes, Bool.and_eq_true] at h
    intro step hstep
    rw [blockSteps] at hstep
    rcases List.mem_append.1 hstep with hstep | hstep
    · exact Stmt.stepOk_steps h.1 step hstep
    · exact Stmt.stepOk_blockSteps h.2 step hstep

end

/-- The effects of a statement with declared variables. -/
lemma Stmt.exists_effects {s : Stmt} (h : s.allNodes (inScope vars.size) = true) :
    ∃ E, s.effects vars = .ok E :=
  Effects.exists_ofSteps (stepOk_steps h)

end Exist

end Inliner
