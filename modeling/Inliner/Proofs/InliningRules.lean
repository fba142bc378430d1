import Inliner.Proofs.Disciplines
import Inliner.Proofs.Preservation

/-!
# Inlining under a discipline

Inlining is work under a discipline if every callee can be taken in (`Discipline.Intake`). When a
callee is spliced in, its variables are *placed* in the scope of the call: a parameter stands for its
argument or for a new local, a local stands for a new local with its flags. What they stand for has
to serve, so that the statements of the callee can be read in the scope. Where no statement can be
emitted, arguments are substituted for parameters.

A callee is read with one level of nesting less than its caller. By induction on the levels, calls are
treated under the discipline (`obeys_inline`), and so a body is simplified under it
(`givesOr_simplify`).
-/

namespace Inliner

lemma Flags.union_empty (f : Flags) : f.union {} = f := by
  simp [Flags.union]

namespace Discipline

/-! ## Callees -/

/-- How a callee is taken into a scope under the discipline. -/
structure Intake (I : Discipline) (callee : MethodBody) where
  /-- The statements of the callee are read like this. -/
  reading : I.Reading
  /-- The scopes in which the callee may be called. -/
  host : Scope → Prop
  /-- What a variable of the callee stands for can take its place. -/
  serves : Scope → VarId → Prop
  source : ∀ s ∈ callee.stmts, reading.sourceStmt s
  host_congr : ∀ {S S' : Scope}, S'.bindings = S.bindings → S.vars.ExtendedTo S'.vars → host S →
    host S'
  serves_congr : ∀ {S S' : Scope} {id : VarId}, S'.bindings.get? id = S.bindings.get? id →
    S.vars.ExtendedTo S'.vars → serves S id → serves S' id
  /-- A parameter that is neither stored into nor pointed at may stand for its argument. -/
  direct : ∀ {S : Scope} {id : VarId} {v : Variable} {arg : Expr},
    callee.vars.get? id = some v → v.flags.addressTaken = false →
      Stmt.blockAssigns id callee.stmts = false → I.expr S.vars arg → serves (S.bound id arg) id
  /-- Every variable may stand for a new local that has its flags, and perhaps some more. -/
  fresh : ∀ {S₀ S S' : Scope} {id : VarId} {v : Variable} {name : String} {type : TypeRef}
    (more : Flags), host S₀ → S₀.vars.ExtendedTo S.vars → callee.vars.get? id = some v →
      S'.vars = S.vars.declareLocal name type (v.flags.union more) →
        S'.bindings.get? id = some (.readVar S.vars.nextId) → serves S' id
  /-- Something may be stored into a new local. -/
  target : ∀ {S : Scope} {t : VarTable} (name : String) (type : TypeRef) (flags : Flags), host S →
    S.vars.ExtendedTo t → I.target (t.declareLocal name type flags) (.var t.nextId)
  fit : ∀ {S S' : Scope}, host S → S.vars.ExtendedTo S'.vars →
    (∀ id ∉ callee.vars.arguments ++ callee.vars.locals,
      S'.bindings.get? id = S.bindings.get? id) →
    (∀ id ∈ callee.vars.arguments ++ callee.vars.locals, serves S' id) → reading.fit S'
  substituted : ∀ {S : Scope} {args : List Expr} {e : Expr}, host S →
    callee.parameters.length = args.length → (∀ a ∈ args, I.expr S.vars a) →
    callee.stmts = [.ret (some e)] → Pass.needsStorage callee = false →
      GivesOr I.fine (Substitution.inlined? S.vars callee.parameters args e) fun r =>
        I.Replaces r S.vars

/-- If every fault is fine, then a substitution needs no more than the nodes of the callee do. -/
lemma Reading.givesOr_inlined {I : Discipline} (R : I.Reading) (hfine : ∀ fault, I.fine fault)
    {vars : VarTable} {parameters : List VarId} {args : List Expr} {e : Expr}
    (hargs : ∀ a ∈ args, I.expr vars a) (he : R.source e) :
    GivesOr I.fine (Substitution.inlined? vars parameters args e) fun r => I.Replaces r vars := by
  have hkeeps : Substitution.Keeps vars args I.fine (fun _ => True) R.source (I.expr vars) :=
    { part := R.part
      argument := fun _ _ => .of_forall hfine fun r hr => by
        obtain ⟨i, -, ha, -⟩ := Substitution.argument_eq_ok hr
        exact ⟨hargs r.1 (List.mem_of_getElem? ha), trivial⟩
      storage := fun _ => hfine _
      node := fun {e es st} he hvar hlength hes _ => .of_forall hfine fun r hr => by
        obtain ⟨hnode, -⟩ := Substitution.own_eq_ok hr
        rw [hnode]
        exact ⟨R.node he hvar hlength hes, trivial⟩ }
  exact hkeeps.inlined (.of_forall hfine fun _ _ => trivial) he

namespace Intake

variable {I : Discipline} {callee : MethodBody} {S S₁ S₂ : Scope} {ids ids' : List VarId}

/-- From the scope `S` to the scope `S'`, the listed variables of the callee were bound to what can
take their place. -/
structure Places (N : I.Intake callee) (S S' : Scope) (ids : List VarId) : Prop
    extends I.Grows S S' where
  kept : ∀ id ∉ ids, S'.bindings.get? id = S.bindings.get? id
  served : ∀ id ∈ ids, N.serves S' id

namespace Places

variable {N : I.Intake callee}

/-- Nothing is bound. -/
lemma nil (S : Scope) : N.Places S S [] where
  toGrows := .of_eq rfl (.refl _)
  kept _ _ := rfl
  served := List.forall_mem_nil _

/-- More variables are bound. -/
lemma append (h : N.Places S S₁ ids) (h' : N.Places S₁ S₂ ids') (hdisjoint : ∀ id ∈ ids, id ∉ ids') :
    N.Places S S₂ (ids ++ ids') where
  toGrows := h.toGrows.trans h'.toGrows
  kept id hid := by
    rw [List.mem_append, not_or] at hid
    rw [h'.kept id hid.2, h.kept id hid.1]
  served id hid := by
    rcases List.mem_append.1 hid with hid | hid
    · exact N.serves_congr (h'.kept id (hdisjoint id hid)) h'.vars (h.served id hid)
    · exact h'.served id hid

/-- Later work leaves the bound variables in their places. -/
lemma after (h : N.Places S S₁ ids) (h' : I.Advances S₁ S₂) : N.Places S S₂ ids where
  toGrows := h.toGrows.trans h'.toGrows
  kept id hid := by rw [h'.bindings, h.kept id hid]
  served id hid := N.serves_congr (by rw [h'.bindings]) h'.vars (h.served id hid)

/-- One variable is bound. -/
lemma bound {id : VarId} {e : Expr} (hbuffer : S₁.buffer = S.buffer)
    (hvars : S.vars.ExtendedTo S₁.vars) (hbindings : S₁.bindings = (S.bound id e).bindings)
    (hserves : N.serves S₁ id) : N.Places S S₁ [id] where
  toGrows := .of_eq hbuffer hvars
  kept id' hid' := by rw [hbindings, Scope.get?_bound, if_neg (by simpa using hid')]
  served id' hid' := by rwa [List.mem_singleton.1 hid']

end Places

/-! ## Placing the variables of a callee -/

variable (N : I.Intake callee) {S₀ : Scope} {effects : List Effects} {values : List Bool}

/-- An argument is passed. -/
lemma places_passArgument {i : Nat} {param : VarId} {arg : Expr} {v : Variable}
    (hhost : N.host S₀) (hvars : S₀.vars.ExtendedTo S.vars) (hS : I.CanEmit S)
    (hv : callee.vars.get? param = some v) (harg : I.expr S.vars arg) :
    (ScopeM.outcomes I.fine).Ensures S (Pass.passArgument callee effects values i param arg)
      fun _ S' => N.Places S S' [param] := by
  rw [Pass.passArgument_eq hv]
  split
  · rename_i hdirect
    simp only [Pass.isDirect, Bool.and_eq_true, Bool.not_eq_true'] at hdirect
    obtain ⟨⟨⟨-, hflag⟩, hassigns⟩, -⟩ := hdirect
    have hserves := N.direct (S := S) hv hflag hassigns harg
    exact Places.bound rfl (.refl _) rfl hserves
  · obtain ⟨S₁, hrun, hbuffer, hvars₁, hbindings⟩ :=
      ScopeM.freshenArgument_cases S param v.type v.flags
    have hextended : S.vars.ExtendedTo S₁.vars := by
      rw [hvars₁]
      exact .declareLocal _ _ _ _
    have hplaces : N.Places S S₁ [param] := by
      refine .bound hbuffer hextended hbindings (N.fresh _ hhost hvars hv hvars₁ ?_)
      rw [hbindings, Scope.get?_bound, if_pos rfl]
    have htarget : I.target S₁.vars (.var S.vars.nextId) := by
      rw [hvars₁]
      exact N.target _ _ _ hhost hvars
    have hemit := ensures_emit (hplaces.canEmit hS)
      (I.made (s := .assign (.var S.vars.nextId) arg) ⟨htarget, I.expr_mono hextended harg⟩)
    refine (ScopeM.outcomes I.fine).bind ?_
    simp only [ScopeM.outcomes, hrun]
    exact (ScopeM.outcomes I.fine).mono hemit fun _ _ h => hplaces.after h.1

/-- All arguments are passed. -/
lemma places_passArguments {i : Nat} {l : List (VarId × Expr)} (hhost : N.host S₀)
    (hvars : S₀.vars.ExtendedTo S.vars) (hS : I.CanEmit S)
    (hnodup : (l.map Prod.fst).Nodup) (hparams : ∀ p ∈ l, ∃ v, callee.vars.get? p.1 = some v)
    (hargs : ∀ p ∈ l, I.expr S.vars p.2) :
    (ScopeM.outcomes I.fine).Ensures S (Pass.passArguments callee effects values i l)
      fun _ S' => N.Places S S' (l.map Prod.fst) := by
  induction l generalizing i S with
  | nil => exact Places.nil S
  | cons p rest ih =>
    obtain ⟨hp, hnodup⟩ := List.nodup_cons.1 hnodup
    obtain ⟨⟨v, hv⟩, hparams⟩ := List.forall_mem_cons.1 hparams
    obtain ⟨harg, hargs⟩ := List.forall_mem_cons.1 hargs
    refine (ScopeM.outcomes I.fine).seq
      (N.places_passArgument hhost hvars hS hv harg) fun _ S₁ h₁ => ?_
    refine (ScopeM.outcomes I.fine).mono (ih (hvars.trans h₁.vars) (h₁.canEmit hS) hnodup hparams
      fun q hq => I.expr_mono h₁.vars (hargs q hq)) fun _ S₂ h₂ => ?_
    exact h₁.append h₂ fun id hid => by rwa [List.mem_singleton.1 hid]

/-- The arguments of a call are passed. -/
lemma places_arguments {args : List Expr} (hhost : N.host S) (hS : I.CanEmit S)
    (hlength : callee.parameters.length = args.length) (hargs : ∀ a ∈ args, I.expr S.vars a) :
    (ScopeM.outcomes I.fine).Ensures S
      (Pass.passArguments callee effects values 0 (callee.parameters.zip args))
      fun _ S' => N.Places S S' callee.parameters := by
  have hfst : (callee.parameters.zip args).map Prod.fst = callee.parameters :=
    List.map_fst_zip hlength.le
  have hnodup : ((callee.parameters.zip args).map Prod.fst).Nodup := by
    rw [hfst]
    exact callee.vars.nodup_idsOf .argument
  have hplaces : (ScopeM.outcomes I.fine).Ensures S
      (Pass.passArguments callee effects values 0 (callee.parameters.zip args))
      fun _ S' => N.Places S S' ((callee.parameters.zip args).map Prod.fst) :=
    N.places_passArguments hhost (.refl _) hS hnodup
      (fun p hp => (VarTable.mem_idsOf.1 (List.of_mem_zip hp).1).imp fun _ h => h.1)
      fun p hp => hargs p.2 (List.of_mem_zip hp).2
  rwa [hfst] at hplaces

/-- The listed locals of the callee are given new locals, one after the other. -/
lemma places_forM (hhost : N.host S₀) (hvars : S₀.vars.ExtendedTo S.vars) (hnodup : ids.Nodup)
    (hids : ∀ id ∈ ids, ∃ v, callee.vars.get? id = some v) :
    (ScopeM.outcomes I.fine).Ensures S (ids.forM (ScopeM.freshenLocal callee.vars))
      fun _ S' => N.Places S S' ids := by
  induction ids generalizing S with
  | nil => exact Places.nil S
  | cons id ids ih =>
    obtain ⟨hid, hnodup⟩ := List.nodup_cons.1 hnodup
    obtain ⟨⟨v, hv⟩, hids⟩ := List.forall_mem_cons.1 hids
    obtain ⟨S₁, hrun, hbuffer, hvars₁, hbindings⟩ := ScopeM.freshenLocal_cases hv S
    have hextended : S.vars.ExtendedTo S₁.vars := by
      rw [hvars₁]
      exact .declareLocal _ _ _ _
    have hplaces : N.Places S S₁ [id] := by
      rw [← Flags.union_empty v.flags] at hvars₁
      refine .bound hbuffer hextended hbindings (N.fresh {} hhost hvars hv hvars₁ ?_)
      rw [hbindings, Scope.get?_bound, if_pos rfl]
    refine (ScopeM.outcomes I.fine).bind ?_
    simp only [ScopeM.outcomes, hrun]
    refine (ScopeM.outcomes I.fine).mono (ih (hvars.trans hextended) hnodup hids) fun _ S₂ h₂ => ?_
    exact hplaces.append h₂ fun id' hid' => by rwa [List.mem_singleton.1 hid']

/-- All locals of the callee are given new locals. -/
lemma places_freshenLocals (hhost : N.host S₀) (hvars : S₀.vars.ExtendedTo S.vars) :
    (ScopeM.outcomes I.fine).Ensures S (ScopeM.freshenLocals callee.vars)
      fun _ S' => N.Places S S' callee.vars.locals := by
  refine (ScopeM.outcomes I.fine).seq (N.places_forM hhost hvars
    (callee.vars.nodup_idsOf .localVar) fun id hid => (VarTable.mem_idsOf.1 hid).imp fun _ h => h.1)
    fun _ S₁ h₁ => ?_
  have hrecord := Ensures.record (I := I) (S := S₁)
  split
  · exact (ScopeM.outcomes I.fine).mono (hrecord _ _ _) fun _ _ h => h₁.after h.1
  · exact h₁

/-! ## Bringing in a callee -/

variable {calls : CallTreatment} {args : List Expr}

/-- What a trailing return gives. -/
lemma ensures_returned (hcalls : calls.Obeys N.reading) {value : Option Expr}
    (hS : N.reading.fit S) (hvalue : ∀ e, value = some e → N.reading.source e) :
    I.Ensures S (Pass.returned calls value) fun e t => I.expr t e := by
  cases value with
  | none => exact .pure I.null
  | some e => exact hcalls.expr hS (hvalue e rfl)

/-- The statements of a callee are simplified in a scope that has its variables placed. -/
lemma ensures_spliced (hcalls : calls.Obeys N.reading) {leading : List Stmt} {value : Option Expr}
    (hsplit : callee.splitReturn? = some (leading, value))
    (hlength : callee.parameters.length = args.length) (hhost : N.host S)
    (hargs : ∀ a ∈ args, I.expr S.vars a) (hbuffer : S.buffer = some []) :
    (ScopeM.outcomes I.fine).Ensures S
      (Pass.spliced calls callee effects values args leading value)
      fun r S' => S.vars.ExtendedTo S'.vars ∧ I.expr S'.vars r.1 ∧ ∀ s ∈ r.2.1, I.stmt S'.vars s := by
  obtain ⟨hleading, hreturned⟩ := MethodBody.forall_of_splitReturn hsplit N.source
  have hvalue : ∀ e, value = some e → N.reading.source e :=
    fun e he => N.reading.madeOf (hreturned e he)
  have hS : I.CanEmit S := .inl (by rw [Scope.hasBuffer, hbuffer]; rfl)
  refine (ScopeM.outcomes I.fine).seq (N.places_arguments hhost hS hlength hargs) fun _ S₁ h₁ => ?_
  refine (ScopeM.outcomes I.fine).seq (N.places_freshenLocals hhost h₁.vars) fun _ S₂ h₂ => ?_
  have hplaces := h₁.append h₂ fun id => VarTable.not_mem_locals
  have hfit := N.fit hhost hplaces.vars hplaces.kept hplaces.served
  refine (ScopeM.outcomes I.fine).seq (hcalls.block hfit (hplaces.canEmit hS) hleading)
    fun _ S₃ h₃ => ?_
  have hfit₃ := N.reading.fit_advances h₃.1 hfit
  refine (ScopeM.outcomes I.fine).seq (N.ensures_returned hcalls hfit₃ hvalue)
    fun result S₄ h₄ => ?_
  have hgrows := hplaces.toGrows.trans (h₃.1.trans h₄.1).toGrows
  refine (ScopeM.outcomes I.fine).bind ?_
  simp only [ScopeM.outcomes, ScopeM.takeStatements_getD]
  exact ⟨hgrows.vars, h₄.2, hgrows.collected hbuffer⟩

/-- If inlining is refused, then the call is left alone. -/
lemma ensures_refuse (location : Nat) (method : MethodRef) (refusal : Pass.Refusal) :
    I.Ensures S (Pass.refuse location method refusal) I.Replaces :=
  .bind (.record _ _ _) fun _ _ _ _ => .pure fun _ he => by cases he

/-- The arguments have effects. -/
lemma givesOr_mapM_effects {t : VarTable} (hargs : ∀ a ∈ args, I.expr t a) :
    GivesOr I.fine (args.mapM (Expr.effects t)) fun _ => True := by
  induction args with
  | nil => exact trivial
  | cons a args ih =>
    obtain ⟨ha, hargs⟩ := List.forall_mem_cons.1 hargs
    rw [List.mapM_cons]
    exact (I.expr_effects ha).bind fun _ _ => (ih hargs).bind fun _ _ => trivial

/-- Where statements can be emitted, a call is left alone or its callee is spliced in. -/
lemma ensures_splice (hcalls : calls.Obeys N.reading) (location : Nat)
    (hlength : callee.parameters.length = args.length) (hhost : N.host S)
    (hargs : ∀ a ∈ args, I.expr S.vars a) (hS : I.CanEmit S) :
    I.Ensures S (Pass.splice calls location callee args) I.Replaces := by
  cases hsplit : callee.splitReturn? with
  | none =>
    rw [Pass.splice, hsplit]
    exact ensures_refuse location callee.method .earlyReturn
  | some split =>
    rw [Pass.splice_look hsplit]
    refine .bind (Q := fun _ _ => True) (.look (givesOr_mapM_effects hargs)) fun effects S₁ h₁ _ => ?_
    refine .bind (Q := fun _ _ => True) (.look trivial) fun values S₂ h₂ _ => ?_
    have h₁₂ := h₁.trans h₂
    refine .bind (Q := fun r t => I.expr t r.1 ∧ ∀ s ∈ r.2.1, I.stmt t s)
      (.nested (N.ensures_spliced hcalls hsplit hlength
        (N.host_congr (S := S) h₁₂.bindings h₁₂.vars hhost)
        (fun a ha => I.expr_mono h₁₂.vars (hargs a ha)) rfl) fun r inner hr =>
          ⟨⟨.of_eq rfl hr.1, rfl⟩, hr.2⟩) fun r S₃ h₃ hr => ?_
    refine .bind (ensures_forM_append ((h₁₂.trans h₃).canEmit hS) hr.2) fun _ S₄ h₄ _ => ?_
    refine .bind (.addEffects _) fun _ S₅ h₅ _ => .pure ?_
    rintro e ⟨⟩
    exact I.expr_mono (h₄.trans h₅).vars hr.1

/-- Where no statement can be emitted, a call is left alone or replaced by what its callee
returns. -/
lemma ensures_substitute (location : Nat) (hlength : callee.parameters.length = args.length)
    (hhost : N.host S) (hargs : ∀ a ∈ args, I.expr S.vars a) :
    I.Ensures S (Pass.substitute location callee args) I.Replaces := by
  rcases Pass.substitute_cases location callee args S with
    ⟨refusal, hrefuse⟩ | ⟨e, hstmts, hstorage, hsubstitute⟩
  · exact .congr hrefuse (ensures_refuse location callee.method refusal)
  · refine .congr hsubstitute (.bind (.ofExcept (N.substituted hhost hlength hargs hstmts hstorage))
      fun r S₁ _ hr => ?_)
    cases r with
    | none => exact ensures_refuse location callee.method .immovableArguments
    | some result => exact .pure hr

/-- In every scope a call is left alone, or what stands for it may take its place. -/
lemma ensures_attempt (hcalls : calls.Obeys N.reading) (location : Nat)
    (hlength : callee.parameters.length = args.length) (hhost : N.host S)
    (hargs : ∀ a ∈ args, I.expr S.vars a) :
    I.Ensures S (Pass.attempt calls location callee args) I.Replaces := by
  by_cases hS : S.hasBuffer = true
  · exact .congr (if_pos hS) (N.ensures_splice hcalls location hlength hhost hargs (.inl hS))
  · exact .congr (if_neg hS) (N.ensures_substitute location hlength hhost hargs)

end Intake

end Discipline

/-! ## Marshalling -/

namespace Pass

variable {policy : Policy} {method : MethodRef} {callee : MethodBody} {args : List Expr}
  {P : Expr → Prop}

/-- Marshalling adds and removes no argument. -/
lemma length_marshalled (policy : Policy) (method : MethodRef) (callee : MethodBody)
    (args : List Expr) : (marshalled policy method callee args).length = args.length := by
  unfold marshalled
  split <;> simp

/-- Arguments are passed as they are, or marshalled. -/
lemma forall_marshalled_iff (h : ∀ e, P (.marshalOut e) ↔ P e) :
    (∀ a ∈ marshalled policy method callee args, P a) ↔ ∀ a ∈ args, P a := by
  unfold marshalled
  split
  · have hone : ∀ p : Expr × Nat,
        P (if policy.passesRaw method p.2 then p.1 else .marshalOut p.1) ↔ P p.1 := by
      intro p
      split
      · rfl
      · exact h p.1
    rw [List.forall_mem_map]
    refine Iff.trans (forall₂_congr fun p _ => hone p) ?_
    rw [← List.forall_mem_map, List.zipIdx_map_fst]
  · rfl

/-- A result is taken as it is, or marshalled. -/
lemma received_iff {e : Expr} (h : ∀ e, P (.marshalIn e) ↔ P e) :
    P (received policy method callee e) ↔ P e := by
  unfold received
  split
  · exact h e
  · rfl

end Pass

/-! ## Inlining -/

/-- With so many levels of nesting left, what is called where terms are read like this can be taken
in, and is itself read as is right for one level less. -/
def Setting.Supports {I : Discipline} (setting : Setting) (J : Nat → I.Reading → Prop) : Prop :=
  ∀ (depth : Nat) (R : I.Reading) (e : Expr) (method : MethodRef) (callee : MethodBody),
    J (depth + 1) R → R.source e → e.method? = some method → setting.body? method = some callee →
      ∃ N : I.Intake callee, J depth N.reading ∧ ∀ S, R.fit S → N.host S

section Inline

variable {I : Discipline} {J : Nat → I.Reading → Prop} {setting : Setting} {R : I.Reading}

/-- Inlining is under the discipline at every depth. -/
theorem obeys_inline (hsetting : setting.Supports J) (location : Nat) {depth : Nat}
    (active : List MethodRef) (hR : J depth R) :
    (CallTreatment.mk setting.policy.isFactory
      (Pass.inline setting location depth active)).Obeys R := by
  have hnone : ∀ t, I.Replaces none t := fun t e he => by cases he
  induction depth generalizing active R with
  | zero => exact fun S _ _ _ _ _ _ _ _ => .pure (hnone S.vars)
  | succ depth ih =>
    intro S e method args hsource hmethod hS _ hargs
    rcases inline_cases setting location depth active method args S with
      hinline | ⟨refusal, hrefuse⟩ | ⟨callee, hbody, hlength, hinline⟩
    · exact .of_eq_ok hinline (.refl S) (hnone S.vars)
    · exact .congr hrefuse (Discipline.Intake.ensures_refuse location method refusal)
    · obtain ⟨N, hN, hhost⟩ := hsetting depth R e method callee hR hsource hmethod hbody
      refine .congr hinline (.bind (N.ensures_attempt (ih (method :: active) hN) location
        (hlength.trans (Pass.length_marshalled _ _ _ _).symm) (hhost S hS)
        ((Pass.forall_marshalled_iff fun _ => I.marshalOut).2 hargs)) fun r S₁ _ hr => ?_)
      cases r with
      | none => exact .pure (hnone S₁.vars)
      | some result =>
        refine .bind (.record _ _ _) fun _ S₂ h₂ _ => .pure ?_
        rintro e ⟨⟩
        exact (Pass.received_iff fun _ => I.marshalIn).2 (I.expr_mono h₂.vars (hr result rfl))

/-- The statements of a method are simplified under the discipline. -/
lemma ensures_topStmts (hsetting : setting.Supports J) (hR : J setting.config.depth R)
    (method : MethodRef) (location : Nat) {stmts : List Stmt} {S : Scope} (hS : R.fit S)
    (hbuffer : I.CanEmit S) (hstmts : ∀ s ∈ stmts, R.sourceStmt s) :
    I.Ensures S (Pass.topStmts setting method location stmts) fun _ _ => True := by
  induction stmts generalizing location S with
  | nil => exact .pure trivial
  | cons s rest ih =>
    obtain ⟨hs, hrest⟩ := List.forall_mem_cons.1 hstmts
    have hcalls := obeys_inline hsetting location [method] hR
    exact .bind (hcalls.stmt hS hbuffer hs) fun _ S₁ h₁ _ =>
      ih (location + 1) (R.fit_advances h₁ hS) (h₁.canEmit hbuffer) hrest

end Inline

/-! ## Simplification -/

section Simplify

variable {setting : Setting} {body : MethodBody} {log : EventLog} {stmts : List Stmt} {S : Scope}

/-- If the statements can be simplified, then they make up the simplified body. -/
lemma simplify_of_collect_eq_ok
    (h : ScopeM.collect (Pass.topStmts setting body.method 0 body.stmts)
      (.root body.method body.vars (log ++ Pass.openingEvents setting.config body)) = .ok stmts S)
    {out : MethodBody} (hout : out = ⟨body.method, body.isImport, S.vars, stmts⟩) :
    simplify setting body log =
      .ok ⟨out, out.usage⟩ (S.log ++ Pass.closingEvents setting.config out) := by
  subst hout
  rw [simplify, ← ScopeM.collect, h]

/-- If they cannot, then the body cannot for the same reason. -/
lemma simplify_of_collect_eq_error {fault : Fault}
    (h : ScopeM.collect (Pass.topStmts setting body.method 0 body.stmts)
      (.root body.method body.vars (log ++ Pass.openingEvents setting.config body)) =
        .error fault S) :
    simplify setting body log = .error fault S.log := by
  rw [simplify, ← ScopeM.collect, h]

/-- What is known of a simplified body. -/
lemma exists_of_simplify_eq_ok {log' : EventLog} {out : Simplified}
    (h : simplify setting body log = .ok out log') :
    ∃ stmts S, ScopeM.collect (Pass.topStmts setting body.method 0 body.stmts)
        (.root body.method body.vars (log ++ Pass.openingEvents setting.config body)) =
          .ok stmts S ∧
      out.body = ⟨body.method, body.isImport, S.vars, stmts⟩ ∧ out.usage = out.body.usage ∧
      log' = S.log ++ Pass.closingEvents setting.config out.body := by
  cases hrun : ScopeM.collect (Pass.topStmts setting body.method 0 body.stmts)
      (.root body.method body.vars (log ++ Pass.openingEvents setting.config body)) with
  | ok stmts S =>
    rw [simplify_of_collect_eq_ok hrun rfl] at h
    cases h
    exact ⟨stmts, S, rfl, rfl, rfl, rfl⟩
  | error fault S =>
    rw [simplify_of_collect_eq_error hrun] at h
    cases h

variable {I : Discipline} {J : Nat → I.Reading → Prop} {R : I.Reading}

/-- A body is simplified under the discipline: its table gets more locals, and the new statements are
as they have to be. -/
theorem givesOr_simplify (hsetting : setting.Supports J) (hR : J setting.config.depth R)
    (hfit : ∀ log, R.fit (.root body.method body.vars log))
    (hbody : ∀ s ∈ body.stmts, R.sourceStmt s) (log : EventLog) :
    GivesOr I.fine (outcome (simplify setting body log)) fun out =>
      body.vars.ExtendedTo out.body.vars ∧ ∀ s ∈ out.body.stmts, I.stmt out.body.vars s := by
  have hcollect := (ensures_topStmts hsetting hR body.method 0
    (R.fit_inside (hfit (log ++ Pass.openingEvents setting.config body)) (some []) _)
    (.inl rfl) hbody).collect
  cases hrun : ScopeM.collect (Pass.topStmts setting body.method 0 body.stmts)
      (.root body.method body.vars (log ++ Pass.openingEvents setting.config body)) with
  | ok stmts S =>
    rw [simplify_of_collect_eq_ok hrun rfl]
    obtain ⟨hadvances, hstmts⟩ := hcollect.of_ok hrun
    exact ⟨hadvances.vars, hstmts⟩
  | error fault S =>
    rw [simplify_of_collect_eq_error hrun]
    exact hcollect.of_error hrun

end Simplify

end Inliner
