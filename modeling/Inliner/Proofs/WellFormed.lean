import Inliner.Proofs.WellNamed

/-!
# Simplification keeps bodies well formed

A body is well formed if its table was built by declarations and its statements are well named in it.
In a setting of well-formed bodies a well-formed body is always simplified, whatever the policy and
the limits are; the result is well formed, and its table is that of the body with locals added.

What remains after `WellNamed` is to take in callees. Parameters that are stored into or pointed at
are never bound to their arguments, so the variables of a well-formed callee that is spliced in stand
for what can be put in their places. A callee that is substituted has nothing that is pointed at. In
this way variables of the method can be spared at the same time (`exists_simplify_sparing`).
-/

namespace Inliner

/-! ## Callees -/

namespace Pass

variable {callee : MethodBody}

/-- In a callee without storage, nothing is pointed at. -/
lemma wellNamed_addressOf (hstorage : needsStorage callee = false) (id : VarId) :
    wellNamed callee.vars (.addressOf (.var id)) = false := by
  refine Bool.eq_false_iff.2 fun h => ?_
  obtain ⟨v, hv, hflag⟩ := (Option.any_eq_true _ _).1 h
  have hmem : id ∈ callee.parameters :=
    Machine.mem_arguments (locals_eq_nil hstorage) (VarTable.index_lt_of_get? hv)
  rw [needsStorage, Bool.or_eq_false_iff] at hstorage
  have hnot := List.any_eq_false.1 hstorage.2 id hmem
  rw [hv] at hnot
  exact hnot hflag

/-- The nodes of a callee without storage are well named also with other operands, in any table. -/
lemma carries_wellNamed (hstorage : needsStorage callee = false) (vars : VarTable) :
    Substitution.Carries vars callee.vars.size (wellNamed callee.vars) (wellNamed vars) where
  read id h := by
    obtain ⟨v, hv⟩ := Option.isSome_iff_exists.1 h
    exact VarTable.index_lt_of_get? hv
  address := wellNamed_addressOf hstorage
  node {e} es hread h := by
    rw [wellNamed_withParts]
    unfold wellNamed
    split
    · cases hread
    · rw [wellNamed_addressOf hstorage] at h
      cases h
    · rfl
  inScope := inScope_of_wellNamed

end Pass

section Callee

variable {spared : VarId → Prop} {callee : MethodBody} {S S' : Scope} {id : VarId} {v : Variable}

/-- A variable that is neither stored into nor pointed at may be bound to any expression. -/
lemma Scope.serves_bound {arg : Expr} (hflag : v.flags.addressTaken = false)
    (harg : arg.allNodes (wellNamed S.vars) = true) :
    (S.bound id arg).Serves spared false id v where
  read := by
    rw [Scope.readVar_bound, if_pos rfl]
    exact harg
  stored hstored := by simp [hflag] at hstored

/-- A variable may be bound to a new local that has its flags. -/
lemma Scope.serves_fresh {written : Bool} {name : String} {type : TypeRef} (more : Flags)
    (hS : S.vars.Shelters spared)
    (hvars : S'.vars = S.vars.declareLocal name type (v.flags.union more))
    (hget : S'.bindings.get? id = some (.readVar S.vars.nextId)) :
    S'.Serves spared written id v := by
  have hread : S'.readVar id = .readVar S.vars.nextId := by
    rw [Scope.readVar, hget]
    rfl
  have hw : S'.vars.get? S.vars.nextId = some ⟨name, type, .localVar, v.flags.union more⟩ := by
    rw [hvars]
    exact List.getElem?_concat_length
  exact .of_readVar hread hw (fun hflag => by simp [Flags.union, hflag]) fun _ => hS.nextId

/-- What is substituted for a call of a well-named callee is well named. -/
lemma givesOr_inlined_wellNamed {vars : VarTable} {args : List Expr} {e : Expr}
    (hcallee : Stmt.blockNodes (wellNamed callee.vars) callee.stmts = true)
    (hlength : callee.parameters.length = args.length)
    (hargs : ∀ a ∈ args, a.allNodes (wellNamed vars) = true)
    (hstmts : callee.stmts = [.ret (some e)]) (hstorage : Pass.needsStorage callee = false) :
    GivesOr (sparing spared).fine (Substitution.inlined? vars callee.parameters args e) fun r =>
      (sparing spared).Replaces r vars := by
  have he : e.allNodes (wellNamed callee.vars) = true := by
    rw [hstmts] at hcallee
    simpa [Stmt.blockNodes, Stmt.allNodes] using hcallee
  obtain ⟨r, hr, hresult⟩ := Substitution.exists_inlined (Pass.carries_wellNamed hstorage vars)
    hargs he (Pass.locals_eq_nil hstorage) hlength
  rw [hr]
  exact hresult

/-- A well-named callee is taken in where the spared variables cannot be pointed at. -/
def sparingIntake (spared : VarId → Prop) (callee : MethodBody)
    (hcallee : Stmt.blockNodes (wellNamed callee.vars) callee.stmts = true) :
    (sparing spared).Intake callee where
  reading := sparingReading spared callee.vars fun id => Stmt.blockAssigns id callee.stmts
  host S := S.vars.Shelters spared
  serves S id := ∀ v, callee.vars.get? id = some v →
    S.Serves spared (Stmt.blockAssigns id callee.stmts) id v
  source s hs := ⟨Stmt.blockNodes_iff.1 hcallee s hs,
    fun _ hassigns => Stmt.blockAssigns_iff.2 ⟨s, hs, hassigns⟩⟩
  host_congr _ hvars hS := hS.mono hvars
  serves_congr hget hvars h v hv :=
    (h v hv).congr (by rw [Scope.readVar, Scope.readVar, hget]) hvars
  direct hv hflag hwritten harg v' hv' := by
    rw [hv] at hv'
    cases hv'
    rw [hwritten]
    exact Scope.serves_bound hflag harg
  fresh more hhost hvars hv hvars' hget v' hv' := by
    rw [hv] at hv'
    cases hv'
    exact Scope.serves_fresh more (hhost.mono hvars) hvars' hget
  target {_ t} name type flags hhost hvars := by
    have hget : (t.declareLocal name type flags).get? t.nextId =
        some ⟨name, type, .localVar, flags⟩ := List.getElem?_concat_length
    refine ⟨by simp [Expr.allNodes, Cell.allNodes, wellNamed, hget], ?_⟩
    rintro _ ⟨⟩
    exact (hhost.mono hvars).nextId
  fit hhost hvars _ hserved := by
    refine ⟨fun id v hv => ?_, hhost.mono hvars⟩
    exact hserved id (VarTable.mem_arguments_append_locals (VarTable.index_lt_of_get? hv)) v hv
  substituted _ hlength hargs := givesOr_inlined_wellNamed hcallee hlength hargs

end Callee

/-! ## Well-formed bodies -/

/-- The table is made by declaring arguments and locals and by raising flags. -/
inductive VarTable.Declared : VarTable → Prop
  | empty : Declared .empty
  | argument {t : VarTable} (name : String) (type : TypeRef) :
      t.Declared → (t.declareArgument name type).Declared
  | localVar {t : VarTable} (name : String) (type : TypeRef) (flags : Flags) :
      t.Declared → (t.declareLocal name type flags).Declared
  | mark {t t' : VarTable} {id : VarId} {flags : Flags} :
      t.Declared → t.mark id flags = .ok t' → t'.Declared

/-- The table was built by declarations, the statements name declared variables only, and point at
those only that are flagged for it. -/
structure MethodBody.WellFormed (b : MethodBody) : Prop where
  declared : b.vars.Declared
  nodes : Stmt.blockNodes (wellNamed b.vars) b.stmts = true

/-- All bodies that are known are well formed. -/
def Setting.WellFormed (setting : Setting) : Prop :=
  ∀ {method : MethodRef} {callee : MethodBody}, setting.body? method = some callee →
    callee.WellFormed

namespace VarTable.ExtendedTo

variable {t t' : VarTable}

/-- Added locals are declared. -/
lemma declared (h : t.ExtendedTo t') (ht : t.Declared) : t'.Declared := by
  obtain ⟨added, hvars, hlocal⟩ := h
  obtain rfl : t' = ⟨t.vars ++ added⟩ := VarTable.ext hvars
  clear hvars
  induction added generalizing t with
  | nil => simpa using ht
  | cons v added ih =>
    obtain ⟨hv, hlocal⟩ := List.forall_mem_cons.1 hlocal
    have hpush : (t.declareLocal v.name v.type v.flags).vars = t.vars ++ [v] := by
      change t.vars ++ [⟨v.name, v.type, .localVar, v.flags⟩] = _
      rw [← hv]
    have hdeclared := ih (ht.localVar v.name v.type v.flags) hlocal
    rwa [hpush, List.append_assoc] at hdeclared

/-- Added locals move no slot. -/
lemma slot_eq (h : t.ExtendedTo t') {id : VarId} {v : Variable} (hv : t.get? id = some v) :
    t'.slot id = t.slot id := by
  have hprefix : t'.vars.take id.index = t.vars.take id.index := by
    obtain ⟨added, hvars, -⟩ := h
    rw [hvars, List.take_append_of_le_length (Nat.le_of_lt (index_lt_of_get? hv))]
  rw [slot_eq_ok hv, slot_eq_ok (h.get?_of_some hv), slotOf, slotOf, hprefix]

end VarTable.ExtendedTo

section Method

variable {setting : Setting} {spared : VarId → Prop}

/-- In a setting of well-formed bodies, callees can be taken in at every depth. -/
lemma supports_sparing (hsetting : setting.WellFormed) (spared : VarId → Prop) :
    setting.Supports fun _ (R : (sparing spared).Reading) =>
      ∀ S, R.fit S → S.vars.Shelters spared := by
  intro depth R e method callee hR _ _ hbody
  exact ⟨sparingIntake spared callee (hsetting hbody).nodes, fun S hS => hS.shelters, hR⟩

/-- Where nothing is bound, variables stand for themselves. -/
lemma Scope.hosts_of_bindings_empty {S : Scope} {written : VarId → Bool} (h : S.bindings = ∅)
    (hS : S.vars.Shelters spared) (hwritten : ∀ id, written id = true → ¬ spared id) :
    S.Hosts spared S.vars written where
  covers id _ hv := .of_readVar (readVar_of_bindings_empty h id) hv (fun hflag => hflag) (hwritten id)
  shelters := hS

/-- A well-formed body is simplified, its table gets more locals, and what takes the place of its
statements is well named. If no spared variable is pointed at or stored into, then none is stored
into afterwards. -/
lemma exists_simplify_sparing (spared : VarId → Prop) (hsetting : setting.WellFormed)
    {body : MethodBody} (hbody : body.WellFormed) (hspared : body.vars.Shelters spared)
    (hassigns : ∀ id, Stmt.blockAssigns id body.stmts = true → ¬ spared id) (log : EventLog) :
    ∃ out log', simplify setting body log = .ok out log' ∧ body.vars.ExtendedTo out.body.vars ∧
      ∀ s ∈ out.body.stmts, (sparing spared).stmt out.body.vars s := by
  have hgives := givesOr_simplify (supports_sparing hsetting spared)
    (R := sparingReading spared body.vars fun id => Stmt.blockAssigns id body.stmts)
    (fun S hS => hS.shelters)
    (fun log => Scope.hosts_of_bindings_empty (S := .root body.method body.vars log) rfl hspared
      hassigns)
    (fun s hs => ⟨Stmt.blockNodes_iff.1 hbody.nodes s hs,
      fun _ hid => Stmt.blockAssigns_iff.2 ⟨s, hs, hid⟩⟩) log
  obtain ⟨out, hout, hgood⟩ := hgives.exists_ok
  exact ⟨out, _, eq_ok_of_outcome hout, hgood⟩

/-- In every setting of well-formed bodies, whatever the policy and the configuration, a well-formed
body is simplified, to a well-formed one. Its parameters are those of the body, every variable of
the body is declared as it was, at the same slot, and what was added are locals. -/
theorem wellFormed_simplify (hsetting : setting.WellFormed) {body : MethodBody}
    (hbody : body.WellFormed) (log : EventLog) :
    ∃ out log', simplify setting body log = .ok out log' ∧ out.body.WellFormed ∧
      body.vars.ExtendedTo out.body.vars ∧ out.body.parameters = body.parameters ∧
      ∀ id v, body.vars.get? id = some v →
        out.body.vars.get? id = some v ∧ out.body.vars.slot id = body.vars.slot id := by
  obtain ⟨out, log', hsimplify, hvars, hstmts⟩ := exists_simplify_sparing (fun _ => False)
    hsetting hbody (fun _ hid => hid.elim) (fun _ _ hid => hid) log
  have hnodes : Stmt.blockNodes (wellNamed out.body.vars) out.body.stmts = true :=
    Stmt.blockNodes_iff.2 fun s hs => (hstmts s hs).1
  exact ⟨out, log', hsimplify, ⟨hvars.declared hbody.declared, hnodes⟩, hvars, hvars.arguments_eq,
    fun id v hv => ⟨hvars.get?_of_some hv, hvars.slot_eq hv⟩⟩

end Method

/-! ## A callee with pointers -/

/-- The table of `credit`: two parameters, the first of which may be pointed at, and a pointer. -/
def creditVars : VarTable :=
  ⟨[⟨"n", intType, .argument, .ofAddress⟩, ⟨"account", ⟨"lib", "Int", true⟩, .argument, {}⟩,
    ⟨"p", ⟨"lib", "Int", true⟩, .localVar, {}⟩]⟩

/-- A callee that points at its first parameter and stores through the second one:
`p := &n; *account := *account + *p; n := *account; return *p`. -/
def creditCallee : MethodBody :=
  ⟨⟨⟨"lib", "Account", false⟩, "credit", 2, true⟩, false, creditVars,
    [.assign (.var ⟨2⟩) (.addressOf (.var ⟨0⟩)),
      .assign (.deref (.readVar ⟨1⟩))
        (.binary .add (.read (.deref (.readVar ⟨1⟩))) (.read (.deref (.readVar ⟨2⟩)))),
      .assign (.var ⟨0⟩) (.read (.deref (.readVar ⟨1⟩))),
      .ret (some (.read (.deref (.readVar ⟨2⟩))))]⟩

/-- A caller that passes a pointer to a local, once where statements can be emitted and once where
they cannot: `x := credit(a, &x); return a ? credit(x, &x) : x`. -/
def creditCaller : MethodBody :=
  ⟨⟨⟨"lib", "Account", false⟩, "settle", 1, true⟩, false,
    (VarTable.empty.declareArgument "a" intType).declareLocal "x" intType .ofAddress,
    [.assign (.var ⟨1⟩) (.call creditCallee.method [.readVar ⟨0⟩, .addressOf (.var ⟨1⟩)]),
      .ret (some (.conditional (.readVar ⟨0⟩)
        (.call creditCallee.method [.readVar ⟨1⟩, .addressOf (.var ⟨1⟩)]) (.readVar ⟨1⟩)))]⟩

/-- The setting in which only `credit` is known, and may be inlined. -/
def creditSetting : Setting where
  body? method := if method = creditCallee.method then some creditCallee else none
  policy := .permissive false [] [] []
  config := {}

lemma wellFormed_creditCallee : creditCallee.WellFormed where
  declared := by
    have hargument : (VarTable.empty.declareArgument "n" intType).Declared := .argument _ _ .empty
    have hmarked := hargument.mark (rfl : VarTable.mark _ ⟨0⟩ .ofAddress = .ok _)
    exact (hmarked.argument "account" ⟨"lib", "Int", true⟩).localVar "p" ⟨"lib", "Int", true⟩ {}
  nodes := by decide

lemma wellFormed_creditSetting : creditSetting.WellFormed := by
  intro method callee hbody
  obtain ⟨-, rfl⟩ : method = creditCallee.method ∧ creditCallee = callee := by
    simpa [creditSetting] using hbody
  exact wellFormed_creditCallee

/-- The first call is spliced in: the parameter that is pointed at gets a local that may be pointed
at, and what was stored through the other parameter is stored into `x`. The second call is left
alone. -/
theorem wellFormed_simplify_creditCaller :
    creditSetting.WellFormed ∧ creditCaller.WellFormed ∧
      ∃ out log', simplify creditSetting creditCaller [] = .ok out log' ∧
        out.body.WellFormed ∧ creditCaller.vars.ExtendedTo out.body.vars ∧
        out.body.parameters = [⟨0⟩] ∧ out.body.vars.slot ⟨1⟩ = .ok (.localVar 0) ∧
        out.body.vars.vars.map (fun v => v.flags.addressTaken) = [false, true, true, false] ∧
        Stmt.blockAssigns ⟨1⟩ (out.body.stmts.take 3) = true ∧ out.body.size = 6 := by
  have hbody : creditCaller.WellFormed := ⟨.localVar _ _ _ (.argument _ _ .empty), by decide⟩
  have hshape : (outcome (simplify creditSetting creditCaller [])).toOption.map (fun out =>
      (out.body.vars.vars.map fun v => v.flags.addressTaken,
        Stmt.blockAssigns ⟨1⟩ (out.body.stmts.take 3), out.body.size)) =
      some ([false, true, true, false], true, 6) := by decide +kernel
  obtain ⟨out, log', hsimplify, hout, hvars, hparameters, hdeclared⟩ :=
    wellFormed_simplify wellFormed_creditSetting hbody []
  rw [hsimplify] at hshape
  have hparts := Option.some.inj hshape
  simp only [Prod.mk.injEq] at hparts
  exact ⟨wellFormed_creditSetting, hbody, out, log', hsimplify, hout, hvars, hparameters,
    (hdeclared ⟨1⟩ _ rfl).2, hparts⟩

end Inliner
