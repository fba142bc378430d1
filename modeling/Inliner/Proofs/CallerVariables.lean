import Inliner.Proofs.WellFormed

/-!
# Inlining stores into no variable of the caller

A callee that is spliced in works on the variables of its caller, by what its own variables stand
for. A parameter that is stored into is not bound to its argument but gets a local of its own, like
every local of the callee. So the callee stores directly into new variables only, or through a
pointer into a variable that may be pointed at. The variables that the method neither stores into nor
points at can therefore be spared.
-/

namespace Inliner

variable {setting : Setting}

/-- In every setting of well-formed bodies, whatever the policy and the configuration, a well-formed
body is simplified, and a variable of the body is stored into directly afterwards only if it was so
before, or if it may be pointed at. -/
theorem assigned_of_assigned_simplify (hsetting : setting.WellFormed) {body : MethodBody}
    (hbody : body.WellFormed) (log : EventLog) :
    ∃ out log', simplify setting body log = .ok out log' ∧
      ∀ id v, body.vars.get? id = some v → Stmt.blockAssigns id out.body.stmts = true →
        Stmt.blockAssigns id body.stmts = true ∨ v.flags.addressTaken = true := by
  -- the variables for which neither is the case are spared
  let spared (id : VarId) : Prop := Stmt.blockAssigns id body.stmts = false ∧
    ∃ v, body.vars.get? id = some v ∧ v.flags.addressTaken = false
  have hassigns : ∀ id, Stmt.blockAssigns id body.stmts = true → ¬ spared id := by
    intro id hid hspared
    exact Bool.false_ne_true (hspared.1.symm.trans hid)
  obtain ⟨out, log', hsimplify, -, hstmts⟩ := exists_simplify_sparing spared hsetting hbody
    (fun _ hid => hid.2) hassigns log
  refine ⟨out, log', hsimplify, fun id v hv hassigned => ?_⟩
  obtain ⟨s, hs, hid⟩ := Stmt.blockAssigns_iff.1 hassigned
  by_contra hnot
  simp only [not_or, Bool.not_eq_true] at hnot
  exact (hstmts s hs).2 id hid ⟨hnot.1, v, hv, hnot.2⟩

/-- A caller that stores into no variable: `return credit(a, &x)`. -/
def payCaller : MethodBody :=
  ⟨⟨⟨"lib", "Account", false⟩, "pay", 1, true⟩, false,
    (VarTable.empty.declareArgument "a" intType).declareLocal "x" intType .ofAddress,
    [.ret (some (.call creditCallee.method [.readVar ⟨0⟩, .addressOf (.var ⟨1⟩)]))]⟩

/-- The callee stores into its first parameter and through the second one. With the callee spliced
in, `x` is stored into, which may be pointed at, but `a` is not. -/
theorem assigned_of_assigned_simplify_payCaller :
    creditSetting.WellFormed ∧ payCaller.WellFormed ∧
      ∃ out log', simplify creditSetting payCaller [] = .ok out log' ∧
        (∀ id v, payCaller.vars.get? id = some v → Stmt.blockAssigns id out.body.stmts = true →
          Stmt.blockAssigns id payCaller.stmts = true ∨ v.flags.addressTaken = true) ∧
        Stmt.blockAssigns ⟨0⟩ out.body.stmts = false ∧
        Stmt.blockAssigns ⟨1⟩ out.body.stmts = true ∧
        Stmt.blockAssigns ⟨1⟩ payCaller.stmts = false ∧ out.body.size = 5 := by
  have hbody : payCaller.WellFormed := ⟨.localVar _ _ _ (.argument _ _ .empty), by decide⟩
  have hshape : (outcome (simplify creditSetting payCaller [])).toOption.map (fun out =>
      (Stmt.blockAssigns ⟨0⟩ out.body.stmts, Stmt.blockAssigns ⟨1⟩ out.body.stmts,
        Stmt.blockAssigns ⟨1⟩ payCaller.stmts, out.body.size)) =
      some (false, true, false, 5) := by decide +kernel
  obtain ⟨out, log', hsimplify, hassigned⟩ :=
    assigned_of_assigned_simplify wellFormed_creditSetting hbody []
  rw [hsimplify] at hshape
  have hparts := Option.some.inj hshape
  simp only [Prod.mk.injEq] at hparts
  exact ⟨wellFormed_creditSetting, hbody, out, log', hsimplify, hassigned, hparts⟩

end Inliner
