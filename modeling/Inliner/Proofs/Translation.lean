import Inliner.Pass.Terms
import Inliner.Proofs.Emission

/-!
# Simplified expressions keep their meaning

Simplifying some expressions in a scope emits statements and gives other expressions. `Translates`
says what this means: running the statements and then evaluating the new expressions is evaluating
the old ones, in environments that are related by the bindings.

Operands can be simplified one after the other, because either nothing is emitted for the later
ones, or the earlier one is a constant or a variable that the later statements do not assign
(`Translates.cons`). The walk over an expression then follows its nodes (`walks_expr`). The
treatment of calls is a parameter, of which only is known that what it puts in place of a call means
the call (`CallTreatment.Sound`).
-/

namespace Inliner

variable {V H X : Type}

/-! ## The meaning of nodes -/

namespace Machine

variable {m : Machine V H X} {env : Env V}

/-- A strict node evaluates its parts and then does its operation. -/
lemma value_strict {e : Expr} (he : e.isStrict = true) (hread : e.variableRead? = none) :
    m.value env e = m.values env e.parts >>= fun vs => m.operation e vs := by
  rw [value, Evaluator.eval_strict _ he]
  exact congrArg _ (funext fun vs => node_inEnv hread vs)

/-- The same node with other parts. -/
lemma value_withParts {e : Expr} (he : e.isStrict = true) (hread : e.variableRead? = none)
    {es : List Expr} (hes : es.length = e.parts.length) :
    m.value env (e.withParts es) = m.values env es >>= fun vs => m.operation e vs := by
  rw [value_strict (by rw [Expr.isStrict_withParts, he]) (by rw [Expr.variableRead?_withParts, hread]),
    Expr.parts_withParts hes]
  exact congrArg _ (funext fun vs => operation_withParts e es vs)

/-- A short-circuit operation evaluates its right operand only if the left one does not decide. -/
lemma value_logical (op : LogicalOp) (left right : Expr) :
    m.value env (.logical op left right) = m.value env left >>= fun a =>
      if op.decidedBy (m.truth a) then pure (m.logical op a none)
      else m.value env right >>= fun b => pure (m.logical op a (some b)) := by
  rw [value, Evaluator.eval_logical]
  rfl

/-- A conditional has the value of one of its arms. -/
lemma value_conditional (cond onTrue onFalse : Expr) :
    m.value env (.conditional cond onTrue onFalse) = m.value env cond >>= fun a =>
      if m.truth a then m.value env onTrue else m.value env onFalse := by
  rw [value, Evaluator.eval_conditional]
  refine congrArg _ (funext fun a => ?_)
  have harm : ∀ f : EStateM X H V,
      (f >>= fun b => (m.inEnv env).node (.conditional cond onTrue onFalse) [a, b]) = f :=
    fun f => bind_pure f
  rw [harm, harm]
  rfl

end Machine

/-- A node without pointers stays plain when its parts are exchanged. -/
lemma plain_withParts {e : Expr} (hread : e.variableRead? = none) (hpointer : noPointer e = true)
    (n : Nat) (es : List Expr) : plain n (e.withParts es) = true := by
  cases e with
  | read c =>
    change plain n (.read (c.withParts es)) = true
    cases c with
    | var id => cases hread
    | deref pointer => cases hpointer
    | _ =>
      unfold Cell.withParts
      split <;> simp_all [plain, inScope, noPointer]
  | addressOf c => cases hpointer
  | _ =>
    unfold Expr.withParts
    split <;> simp_all [plain, inScope, noPointer]

/-! ## Translated expressions -/

/-- Simplifying the expressions `es`, over the first `k` variables, leads from the scope `S` to the
scope `S'`, emits the statements `D` and gives the expressions `es'`. -/
structure Translates (m : Machine V H X) (k : Nat) (S S' : Scope) (D : List Stmt)
    (es es' : List Expr) : Prop where
  emits : Emits S.vars.size S S' D
  noReturn : Stmt.blockContainsReturn D = false
  length : es'.length = es.length
  nodes : ∀ e ∈ es', e.allNodes (plain S'.vars.size) = true
  values_eq : ∀ {τ σ : Env V}, m.Stands S k τ σ → m.Fresh S.vars S'.vars τ →
    (m.runBlock D τ >>= fun τ' => m.values τ' es') = m.values σ es

namespace Translates

variable {m : Machine V H X} {k : Nat} {S S₁ S₂ : Scope} {D D₁ D₂ : List Stmt}
  {e e' : Expr} {es es' : List Expr} {τ σ : Env V}

/-- The value of a single expression. -/
lemma value_eq (h : Translates m k S S₁ D [e] [e']) (hstands : m.Stands S k τ σ)
    (hfresh : m.Fresh S.vars S₁.vars τ) :
    (m.runBlock D τ >>= fun τ' => m.value τ' e') = m.value σ e := by
  have hvalues := congrArg (fun f => f >>= fun vs => pure (vs.headD (m.constant .null)))
    (h.values_eq hstands hfresh)
  simpa [Machine.values_singleton] using hvalues

/-- What is said of a single expression follows from what is said of its value. -/
lemma of_value (hemits : Emits S.vars.size S S₁ D) (hreturn : Stmt.blockContainsReturn D = false)
    (hnodes : e'.allNodes (plain S₁.vars.size) = true)
    (hvalue : ∀ {τ σ : Env V}, m.Stands S k τ σ → m.Fresh S.vars S₁.vars τ →
      (m.runBlock D τ >>= fun τ' => m.value τ' e') = m.value σ e) :
    Translates m k S S₁ D [e] [e'] where
  emits := hemits
  noReturn := hreturn
  length := rfl
  nodes a ha := by
    rw [List.mem_singleton.1 ha]
    exact hnodes
  values_eq hstands hfresh := by
    rw [Machine.values_singleton, ← hvalue hstands hfresh, bind_assoc]
    exact congrArg _ (funext fun τ' => Machine.values_singleton e')

lemma nil (S : Scope) : Translates m k S S [] [] [] where
  emits := .silent rfl rfl rfl
  noReturn := rfl
  length := rfl
  nodes e he := by cases he
  values_eq _ _ := by simp

/-- An operand can be followed by others if nothing is emitted for them or the operand does not
depend on what is emitted. -/
lemma cons (h : Translates m k S S₁ D₁ [e] [e']) (hrest : Translates m k S₁ S₂ D₂ es es')
    (hbinds : S.Binds k) (hmove : D₂ = [] ∨ e'.IsSimple S₁.vars.size) :
    Translates m k S S₂ (D₁ ++ D₂) (e :: es) (e' :: es') where
  emits := h.emits.trans hrest.emits h.emits.vars.size_le
  noReturn := by rw [Stmt.blockContainsReturn_append, h.noReturn, hrest.noReturn]; rfl
  length := by rw [List.length_cons, List.length_cons, hrest.length]
  nodes a ha := by
    rcases List.mem_cons.1 ha with rfl | ha
    · exact Expr.allNodes_mono (fun _ => plain_mono hrest.emits.vars.size_le) (h.nodes a (by simp))
    · exact hrest.nodes a ha
  values_eq {τ σ} hstands hfresh := by
    have hfirst := h.value_eq hstands (hfresh.left hrest.emits.vars)
    rw [Machine.runBlock_append h.noReturn, Machine.values_cons, ← hfirst, bind_assoc, bind_assoc]
    funext heap
    refine bind_congr_of_ok fun τ₁ heap₁ hrun => congrFun ?_ heap₁
    rw [← hrest.values_eq (h.emits.stands hrun hbinds hstands) (h.emits.fresh hrun hfresh)]
    rcases hmove with rfl | hsimple
    · rw [Machine.runBlock_nil, pure_bind, pure_bind, Machine.values_cons]
    · -- the operand has the same value before and after the later statements
      obtain ⟨v, hv⟩ := hsimple.exists_value (m := m) τ₁
      rw [hv, pure_bind, bind_assoc]
      funext heap₂
      refine bind_congr_of_ok fun τ₂ heap₃ hrun₂ => ?_
      have hv₂ : m.value τ₂ e' = pure v := by
        rw [← hv]
        exact Machine.value_congr_of_plain hsimple.allNodes_plain fun id hid =>
          Machine.runBlock_frame hrun₂ (hrest.emits.unassigned (.inl hid))
      rw [Machine.values_cons, hv₂, pure_bind]

/-- Where no statement can be emitted, the buffer is not seen. -/
lemma withoutBuffer (h : Translates m k { S with buffer := none } S₁ D es es') :
    Translates m k S { S₁ with buffer := S.buffer, effects := S.effects } [] es es' := by
  obtain rfl : D = [] := h.emits.nothing rfl
  exact {
    emits := ⟨h.emits.bindings, by simp, fun _ => rfl, h.emits.vars, h.emits.assigned, h.emits.nodes⟩
    noReturn := rfl
    length := h.length
    nodes := h.nodes
    values_eq := h.values_eq }

/-- Later work that emits nothing is not seen. -/
lemma after (h : Translates m k S S₁ D es es') {lo : Nat} (hlater : Emits lo S₁ S₂ []) :
    Translates m k S S₂ D es es' where
  emits := by
    have hemits := h.emits.trans { hlater with assigned := fun id hid => by cases hid } le_rfl
    rwa [List.append_nil] at hemits
  noReturn := h.noReturn
  length := h.length
  nodes e he := Expr.allNodes_mono (fun _ => plain_mono hlater.vars.size_le) (h.nodes e he)
  values_eq hstands hfresh := h.values_eq hstands (hfresh.left hlater.vars)

/-- A strict node with its parts translated. -/
lemma node (he : e.isStrict = true) (hread : e.variableRead? = none) (hpointer : noPointer e = true)
    (h : Translates m k S S₁ D e.parts es') : Translates m k S S₁ D [e] [e.withParts es'] := by
  refine of_value h.emits h.noReturn ?_ fun hstands hfresh => ?_
  · refine Expr.allNodes_iff.2 ⟨plain_withParts hread hpointer _ _, ?_⟩
    rw [Expr.parts_withParts h.length]
    exact h.nodes
  · rw [Machine.value_strict he hread, ← h.values_eq hstands hfresh, bind_assoc]
    exact congrArg _ (funext fun τ' => Machine.value_withParts he hread h.length)

/-- A short-circuit operation; its right operand emits nothing. -/
lemma logical {op : LogicalOp} {left left' right right' : Expr} (hbinds : S.Binds k)
    (hl : Translates m k S S₁ D [left] [left']) (hr : Translates m k S₁ S₂ [] [right] [right']) :
    Translates m k S S₂ D [.logical op left right] [.logical op left' right'] := by
  have hleft := hl.after hr.emits
  refine of_value hleft.emits hl.noReturn ?_ fun {τ σ} hstands hfresh => ?_
  · refine Expr.allNodes_iff.2 ⟨rfl, ?_⟩
    simp [Expr.parts, hleft.nodes left' (by simp), hr.nodes right' (by simp)]
  · rw [Machine.value_logical, ← hleft.value_eq hstands hfresh, bind_assoc]
    funext heap
    refine bind_congr_of_ok fun τ₁ heap₁ hrun => congrFun ?_ heap₁
    have hright := hr.value_eq (hl.emits.stands hrun hbinds hstands) (hl.emits.fresh hrun hfresh)
    rw [Machine.runBlock_nil, pure_bind] at hright
    rw [Machine.value_logical, hright]

/-- A conditional; its arms emit nothing. -/
lemma conditional {S₃ : Scope} {cond cond' onTrue onTrue' onFalse onFalse' : Expr}
    (hbinds : S.Binds k) (hc : Translates m k S S₁ D [cond] [cond'])
    (ht : Translates m k S₁ S₂ [] [onTrue] [onTrue'])
    (hf : Translates m k S₂ S₃ [] [onFalse] [onFalse']) :
    Translates m k S S₃ D [.conditional cond onTrue onFalse]
      [.conditional cond' onTrue' onFalse'] := by
  have hcond := (hc.after ht.emits).after hf.emits
  have htrue := ht.after hf.emits
  refine of_value hcond.emits hc.noReturn ?_ fun {τ σ} hstands hfresh => ?_
  · refine Expr.allNodes_iff.2 ⟨rfl, ?_⟩
    simp [Expr.parts, hcond.nodes cond' (by simp), htrue.nodes onTrue' (by simp),
      hf.nodes onFalse' (by simp)]
  · rw [Machine.value_conditional, ← hcond.value_eq hstands hfresh, bind_assoc]
    funext heap
    refine bind_congr_of_ok fun τ₁ heap₁ hrun => congrFun ?_ heap₁
    have hstands₁ := hc.emits.stands hrun hbinds hstands
    have hfresh₁ := hc.emits.fresh hrun hfresh
    have hτ₁ : m.runBlock [] τ₁ heap₁ = .ok τ₁ heap₁ := by
      rw [Machine.runBlock_nil]
      rfl
    have htrue := htrue.value_eq hstands₁ hfresh₁
    have hfalse := hf.value_eq (ht.emits.stands hτ₁ (hc.emits.binds hbinds) hstands₁)
      (ht.emits.fresh hτ₁ hfresh₁)
    rw [Machine.runBlock_nil, pure_bind] at htrue hfalse
    rw [Machine.value_conditional, htrue, hfalse]

end Translates

/-! ## Calls -/

/-- What stands for a call, with the statements `D` emitted before it, does the operation `op` on
the values of the arguments. -/
structure Inlines (m : Machine V H X) (S S' : Scope) (D : List Stmt) (args : List Expr)
    (op : List V → EStateM X H V) (result : Expr) : Prop where
  emits : Emits S.vars.size S S' D
  noReturn : Stmt.blockContainsReturn D = false
  nodes : result.allNodes (plain S'.vars.size) = true
  value_eq : ∀ {τ : Env V}, m.Fresh S.vars S'.vars τ →
    (m.runBlock D τ >>= fun τ' => m.value τ' result) = m.values τ args >>= op

namespace CallTreatment

/-- The method that is called by a node, if its calls are treated. -/
def callee? (calls : CallTreatment) : Expr → Option MethodRef
  | .call method _ => some method
  | .callOn method _ _ => some method
  | .construct method _ => if calls.isFactory method then some method else none
  | _ => none

/-- What a call of the method does, or the creation of an object if it is a factory. -/
def Means (calls : CallTreatment) (m : Machine V H X) (method : MethodRef)
    (op : List V → EStateM X H V) : Prop :=
  op = m.call method ∨ calls.isFactory method = true ∧ op = m.construct method

/-- Every call is either left alone or inlined, and then keeps its meaning. -/
def Sound (calls : CallTreatment) (m : Machine V H X) : Prop :=
  ∀ (S : Scope) (method : MethodRef) (args : List Expr),
    (∀ a ∈ args, a.allNodes (plain S.vars.size) = true) →
      (∃ S', calls.inline method args S = .ok none S' ∧ Emits S.vars.size S S' []) ∨
      ∃ result S' D, calls.inline method args S = .ok (some result) S' ∧
        ∀ op, calls.Means m method op → Inlines m S S' D args op result

variable {calls : CallTreatment} {m : Machine V H X}

/-- The operation of a node that calls a method. -/
lemma means_operation {e : Expr} {method : MethodRef} (h : calls.callee? e = some method) :
    calls.Means m method (m.operation e) := by
  unfold callee? at h
  split at h
  · cases h
    exact .inl (funext fun vs => rfl)
  · cases h
    exact .inl (funext fun vs => rfl)
  · split at h
    · rename_i hfactory
      cases h
      exact .inr ⟨hfactory, funext fun vs => rfl⟩
    · cases h
  · cases h

end CallTreatment

/-- A call with its arguments translated, and something put in its place. -/
lemma Translates.inlined {m : Machine V H X} {k : Nat} {S S₁ S₂ : Scope} {D₁ D₂ : List Stmt}
    {e e' : Expr} {es' : List Expr} (he : e.isStrict = true) (hread : e.variableRead? = none)
    (h : Translates m k S S₁ D₁ e.parts es') (hcall : Inlines m S₁ S₂ D₂ es' (m.operation e) e') :
    Translates m k S S₂ (D₁ ++ D₂) [e] [e'] := by
  refine .of_value (h.emits.trans hcall.emits h.emits.vars.size_le) ?_ hcall.nodes
    fun {τ σ} hstands hfresh => ?_
  · rw [Stmt.blockContainsReturn_append, h.noReturn, hcall.noReturn]
    rfl
  · rw [Machine.value_strict he hread, ← h.values_eq hstands (hfresh.left hcall.emits.vars),
      Machine.runBlock_append h.noReturn, bind_assoc, bind_assoc]
    funext heap
    refine bind_congr_of_ok fun τ₁ heap₁ hrun => congrFun ?_ heap₁
    exact hcall.value_eq (h.emits.fresh hrun hfresh)

/-! ## The walk over expressions -/

/-- One of several operands is simplified. -/
lemma operand_eq (act : ScopeM Expr) (waiting : Bool) (S : Scope) :
    Pass.operand act waiting S =
      ((if waiting && S.hasBuffer then ScopeM.withoutStatements act else act) >>= fun e =>
        get >>= fun s => pure (e, waiting || !e.isValue s.vars)) S := by
  have hget : (get : ScopeM Scope) S = .ok S S := rfl
  rw [Pass.operand, bind_of_ok hget]
  split <;> rfl

/-- In every scope that binds the first `k` variables, `act` simplifies the expression `e`. -/
def Walks (m : Machine V H X) (k : Nat) (act : ScopeM Expr) (e : Expr) : Prop :=
  ∀ S : Scope, S.Binds k → ∃ e' S' D, act S = .ok e' S' ∧ Translates m k S S' D [e] [e']

namespace Walks

variable {m : Machine V H X} {k : Nat} {act : ScopeM Expr} {e : Expr} {S : Scope}

/-- Where no statement can be emitted, an expression is simplified too. -/
lemma withoutStatements (h : Walks m k act e) (hbinds : S.Binds k) :
    ∃ e' S', ScopeM.withoutStatements act S = .ok e' S' ∧ Translates m k S S' [] [e] [e'] := by
  obtain ⟨e', S', D, hact, htranslates⟩ := h { S with buffer := none } hbinds
  refine ⟨e', _, ?_, htranslates.withoutBuffer⟩
  simp [ScopeM.withoutStatements, ScopeM.nested, hact]

/-- An operand for which something is waiting emits nothing; one that waits for nothing itself is
simple. -/
lemma operand (h : Walks m k act e) (hbinds : S.Binds k) (waiting : Bool) :
    ∃ e' w S' D, Pass.operand act waiting S = .ok (e', w) S' ∧ Translates m k S S' D [e] [e'] ∧
      (waiting = true → D = [] ∧ w = true) ∧ (w = false → e'.IsSimple S'.vars.size) := by
  have hresult : ∀ {e' S' D}, Translates m k S S' D [e] [e'] →
      (waiting || !e'.isValue S'.vars) = false → e'.IsSimple S'.vars.size := by
    intro e' S' D htranslates hw
    simp only [Bool.or_eq_false_iff, Bool.not_eq_false'] at hw
    exact .of_isValue (htranslates.nodes e' (by simp)) hw.2
  by_cases hwait : (waiting && S.hasBuffer) = true
  · obtain ⟨e', S', hact, htranslates⟩ := h.withoutStatements hbinds
    have hrun : Pass.operand act waiting S = .ok (e', waiting || !e'.isValue S'.vars) S' := by
      rw [operand_eq, if_pos hwait, bind_of_ok hact]
      rfl
    exact ⟨e', _, S', [], hrun, htranslates, fun hw => ⟨rfl, by simp [hw]⟩, hresult htranslates⟩
  · obtain ⟨e', S', D, hact, htranslates⟩ := h S hbinds
    have hrun : Pass.operand act waiting S = .ok (e', waiting || !e'.isValue S'.vars) S' := by
      rw [operand_eq, if_neg hwait, bind_of_ok hact]
      rfl
    refine ⟨e', _, S', D, hrun, htranslates, fun hw => ⟨?_, by simp [hw]⟩, hresult htranslates⟩
    refine htranslates.emits.nothing ?_
    simpa [hw, Scope.hasBuffer] using hwait

end Walks

section Walk

variable {m : Machine V H X} {k : Nat} {calls : CallTreatment}

/-- Operands are simplified from left to right. -/
lemma exists_operands {es : List Expr} (hes : ∀ e ∈ es, Walks m k (Pass.expr calls e) e)
    {S : Scope} (hbinds : S.Binds k) (waiting : Bool) :
    ∃ es' S' D, Pass.operands calls es waiting S = .ok es' S' ∧ Translates m k S S' D es es' ∧
      (waiting = true → D = []) := by
  induction es generalizing S waiting with
  | nil => exact ⟨[], S, [], rfl, .nil S, fun _ => rfl⟩
  | cons e rest ih =>
    obtain ⟨e', w, S₁, D₁, hact, htranslates, hwaiting, hsimple⟩ :=
      (hes e (by simp)).operand hbinds waiting
    obtain ⟨rest', S₂, D₂, hrest, htranslates', hw⟩ :=
      ih (fun a ha => hes a (by simp [ha])) (htranslates.emits.binds hbinds) w
    refine ⟨e' :: rest', S₂, D₁ ++ D₂, ?_, htranslates.cons htranslates' hbinds ?_, fun h => ?_⟩
    · rw [Pass.operands, bind_of_ok hact]
      change (Pass.operands calls rest w >>= fun rest => pure (e' :: rest)) S₁ = _
      rw [bind_of_ok hrest]
      rfl
    · cases w with
      | true => exact .inl (hw rfl)
      | false => exact .inr (hsimple rfl)
    · obtain ⟨rfl, rfl⟩ := hwaiting h
      rw [hw rfl, List.append_nil]

/-- At a strict node without pointers the operands are simplified, and then a call is treated. -/
lemma expr_strict {e : Expr} (he : e.isStrict = true) (hread : e.variableRead? = none)
    (hpointer : noPointer e = true) :
    Pass.expr calls e = Pass.operands calls e.parts false >>= fun es =>
      match calls.callee? e with
      | some method => calls.inline method es >>= fun r => pure (r.getD (e.withParts es))
      | none => pure (e.withParts es) := by
  have hget : ∀ {A : Type} (f : ScopeM A), ((get : ScopeM Scope) >>= fun _ => f) = f := fun f => rfl
  cases e with
  | read c =>
    cases c with
    | var id => cases hread
    | deref pointer => cases hpointer
    | _ =>
      simp [Pass.expr, Pass.cell, Pass.operands, Pass.operand, hget, Expr.parts, Cell.parts,
        CallTreatment.callee?, Expr.withParts, Cell.withParts]
  | addressOf c => cases hpointer
  | logical op left right => cases he
  | conditional cond onTrue onFalse => cases he
  | construct method args =>
    by_cases hfactory : calls.isFactory method = true <;>
      simp [Pass.expr, Expr.parts, CallTreatment.callee?, Expr.withParts, hfactory]
  | _ =>
    simp [Pass.expr, Pass.operands, Pass.operand, hget, Expr.parts, CallTreatment.callee?,
      Expr.withParts]

/-- Every plain expression is simplified, and keeps its meaning. -/
lemma walks_expr (hcalls : calls.Sound m) {e : Expr} (he : e.allNodes (plain k) = true) :
    Walks m k (Pass.expr calls e) e := by
  induction e using Expr.induct with
  | strict e hstrict ih =>
    intro S hbinds
    obtain ⟨hself, hparts⟩ := Expr.allNodes_iff.1 he
    cases hread : e.variableRead? with
    | some id =>
      obtain rfl := Expr.eq_readVar hread
      have hid : id.index < k := by simpa [plain, inScope, noPointer] using hself
      refine ⟨S.readVar id, S, [], rfl, .of_value (.silent rfl rfl rfl) rfl
        (hbinds id hid).allNodes_plain fun hstands _ => ?_⟩
      rw [Machine.runBlock_nil, pure_bind, hstands id hid, Machine.value_readVar]
    | none =>
      have hpointer : noPointer e = true := by
        rw [plain, Bool.and_eq_true] at hself
        exact hself.2
      obtain ⟨es', S₁, D₁, hoperands, htranslates, -⟩ :=
        exists_operands (fun a ha => ih a ha (hparts a ha)) hbinds false
      rw [expr_strict hstrict hread hpointer, bind_of_ok hoperands]
      cases hcallee : calls.callee? e with
      | none => exact ⟨_, S₁, D₁, rfl, htranslates.node hstrict hread hpointer⟩
      | some method =>
        rcases hcalls S₁ method es' htranslates.nodes with ⟨S₂, hinline, hsilent⟩ |
          ⟨result, S₂, D₂, hinline, hinlines⟩
        · refine ⟨e.withParts es', S₂, D₁, ?_, (htranslates.node hstrict hread hpointer).after hsilent⟩
          simp only [bind_of_ok hinline]
          rfl
        · refine ⟨result, S₂, D₁ ++ D₂, ?_, htranslates.inlined hstrict hread
            (hinlines _ (CallTreatment.means_operation hcallee))⟩
          simp only [bind_of_ok hinline]
          rfl
  | logical op left right ihl ihr =>
    intro S hbinds
    obtain ⟨-, hparts⟩ := Expr.allNodes_iff.1 he
    obtain ⟨left', S₁, D, hleft, hl⟩ := ihl (hparts left (by simp [Expr.parts])) S hbinds
    obtain ⟨right', S₂, hright, hr⟩ := Walks.withoutStatements
      (ihr (hparts right (by simp [Expr.parts]))) (hl.emits.binds hbinds)
    refine ⟨.logical op left' right', S₂, D, ?_, .logical hbinds hl hr⟩
    rw [Pass.expr, bind_of_ok hleft, bind_of_ok hright]
    rfl
  | conditional cond onTrue onFalse ihc iht ihf =>
    intro S hbinds
    obtain ⟨-, hparts⟩ := Expr.allNodes_iff.1 he
    obtain ⟨cond', S₁, D, hcond, hc⟩ := ihc (hparts cond (by simp [Expr.parts])) S hbinds
    have hbinds₁ := hc.emits.binds hbinds
    obtain ⟨onTrue', S₂, htrue, ht⟩ := Walks.withoutStatements
      (iht (hparts onTrue (by simp [Expr.parts]))) hbinds₁
    obtain ⟨onFalse', S₃, hfalse, hf⟩ := Walks.withoutStatements
      (ihf (hparts onFalse (by simp [Expr.parts]))) (ht.emits.binds hbinds₁)
    refine ⟨.conditional cond' onTrue' onFalse', S₃, D, ?_, .conditional hbinds hc ht hf⟩
    rw [Pass.expr, bind_of_ok hcond, bind_of_ok htrue, bind_of_ok hfalse]
    rfl

end Walk

end Inliner
