import Inliner.Proofs.CheckedReads
import Inliner.Proofs.FaultKinds
import Inliner.Proofs.UntouchedScopes

/-!
# Variables that are not declared

Every variable that a simplified method reads or stores into is declared, since a statement is emitted
only if it has effects. This says little about where the variable was declared, because the variables
of a method and those of the callees inlined into it are numbered alike. A variable that a spliced
callee does not declare is looked up among those that are bound for the callees around it; if it is not
bound there either, it is taken for the variable of that number of the method that is simplified, and
that one may have been declared by inlining something else. Pointers to variables are not checked at
all. Only where no statement can be emitted, arguments are substituted for parameters, and a callee that
mentions anything else is refused (`Substitution.inScope_of_expr`).

The walk vouches for the terms that it is given (`Inliner.Proofs.CheckedReads`). Here this is carried
over to callees: what is bound while a callee is walked over are its own variables and what was bound
before (`VarTable.BindsOver`, `Site.Inherits`), so whatever is inlined, the callee is vouched for
(`StackM.vouches_tryInline`). The main result is `resolves_of_simplify`, which says how each variable is
resolved; `not_forall_undeclared_rejected` gives an undeclared variable of each kind that is not
rejected.
-/

namespace Inliner

/-! ## Substituted callees -/

/-- An accepted walk has met parameters only, and no pointer to a variable. -/
lemma Substitution.inScope_of_expr {vars : VarTable} {args : List Expr} {e e' : Expr} {u : Bool}
    {st st' : State} {n : Nat} (hpos : ∀ id i, st.tracker.position? id = some i → id.index < n)
    (h : expr vars args e u st = .ok (e', st')) (hok : st'.tracker.failed = false) :
    e.allNodes (inScope n) = true := by
  induction e using Expr.induct_parts generalizing u st st' e' with
  | step e ih =>
    refine Expr.allNodes_iff.2 ⟨?_, fun a ha => ?_⟩
    · cases e with
      | read c =>
        cases c with
        | var id =>
          rw [expr] at h
          obtain ⟨i, hi, -⟩ := argument_eq_ok h
          exact decide_eq_true (hpos id i hi)
        | _ => rfl
      | addressOf c =>
        cases c with
        | var id =>
          -- the address of a parameter is refused
          rw [expr, cell] at h
          obtain ⟨c, st₁, hc, -⟩ := bind_eq_ok h
          cases hc
        | _ => rfl
      | _ => rfl
    · obtain ⟨u', a', st₁, st₂, hwalk, hbefore, hafter⟩ := exists_walk_of_part h hok ha
      refine ih a ha (fun id i hi => hpos id i ?_) hwalk hafter.ok
      rwa [← hbefore.position?]

/-- A parameter with a position is declared. -/
lemma MethodBody.index_lt_of_position? {callee : MethodBody} {t : ArgumentTracker}
    (ht : t.parameters = callee.parameters) {id : VarId} {i : Nat} (h : t.position? id = some i) :
    id.index < callee.vars.size := by
  have hnodup : t.parameters.Nodup := ht ▸ callee.vars.nodup_idsOf .argument
  rw [ArgumentTracker.position?_eq_idxOf? hnodup, ht] at h
  have hmem : id ∈ callee.parameters := List.isSome_idxOf?.1 (by rw [h]; rfl)
  obtain ⟨v, hv, -⟩ := VarTable.mem_idsOf.1 hmem
  exact (List.getElem?_eq_some_iff.1 hv).1

/-- Arguments whose effects are known read declared variables only. -/
lemma Expr.reads_of_mapM {vars : VarTable} {args : List Expr} {Es : List Effects}
    (h : args.mapM (Expr.effects vars) = .ok Es) : ∀ a ∈ args, a.Reads vars.declares := by
  intro a ha
  obtain ⟨i, hi⟩ := List.getElem?_of_mem ha
  obtain ⟨E, -, hE⟩ := getElem?_of_mapM_eq_ok h hi
  exact reads_of_effects hE

/-- What is in scope is declared. -/
lemma readsOnly_of_inScope {n : Nat} {e : Expr} (h : inScope n e = true) :
    readsOnly (below n) e = true := by
  unfold readsOnly
  split
  · exact h
  · rfl

/-- A callee that arguments were substituted into mentions its own variables only, and the arguments
read declared ones. -/
lemma Pass.inScope_of_substitute {location : Nat} {callee : MethodBody} {args : List Expr}
    {S S' : Scope} {result : Expr}
    (h : substitute location callee args S = .ok (some result) S') :
    Stmt.blockNodes (inScope callee.vars.size) callee.stmts = true ∧
      ∀ a ∈ args, a.Reads S.vars.declares := by
  rcases substitute_cases location callee args S with ⟨refusal, hrefuse⟩ | ⟨e, hstmts, -, -⟩
  · rw [hrefuse] at h
    cases h
  · obtain ⟨hinlined, -⟩ := substitute_eq_ok hstmts h
    obtain ⟨t, last, ht, hwalk, hfinish⟩ := Substitution.inlined?_eq_ok hinlined
    obtain ⟨hparameters, -, heffects, -⟩ := ArgumentTracker.start_eq_ok ht
    have hok : last.tracker.failed = false := (ArgumentTracker.finish_isOk hfinish).1
    have he : e.allNodes (inScope callee.vars.size) = true :=
      Substitution.inScope_of_expr (fun id i => MethodBody.index_lt_of_position? hparameters) hwalk
        hok
    refine ⟨?_, Expr.reads_of_mapM heffects⟩
    rw [hstmts]
    simpa [Stmt.blockNodes, Stmt.allNodes] using he

/-! ## Spliced callees -/

/-- Nothing is bound but what was bound before, and variables of the callee. -/
def VarTable.BindsOver (callee : VarTable) (outer inner : KeyMap VarId Expr) : Prop :=
  ∀ id, inner.contains id = true → outer.contains id = true ∨ callee.declares id = true

/-- An id that the table lists is declared. -/
lemma VarTable.declares_of_mem_idsOf {t : VarTable} {storage : Storage} {id : VarId}
    (h : id ∈ t.idsOf storage) : t.declares id = true := by
  obtain ⟨v, hv, -⟩ := mem_idsOf.1 h
  exact decide_eq_true (index_lt_of_get? hv)

/-- When the variables of a callee are placed in a scope, variables are declared, and none is bound but
those of the callee. -/
lemma Pass.bindsOver_of_placed {callee : MethodBody} {effects : List Effects} {values : List Bool}
    {args : List Expr} {S S₁ S₂ : Scope} (hbuffer : S.hasBuffer = true)
    (hlength : callee.parameters.length = args.length)
    (hpass : passArguments callee effects values 0 (callee.parameters.zip args) S = .ok () S₁)
    (hfreshen : ScopeM.freshenLocals callee.vars S₁ = .ok () S₂) :
    S.vars.size ≤ S₂.vars.size ∧ callee.vars.BindsOver S.bindings S₂.bindings := by
  have harguments := ScopeM.outcomes_of_ok ((orderlyIntake callee).places_arguments trivial
    (.inl hbuffer) hlength fun _ _ => trivial) hpass
  have hlocals := ScopeM.outcomes_of_ok ((orderlyIntake callee).places_freshenLocals trivial
    harguments.vars) hfreshen
  have hplaces := harguments.append hlocals fun id => VarTable.not_mem_locals
  refine ⟨hplaces.vars.size_le, fun id hid => ?_⟩
  by_cases hown : id ∈ callee.parameters ++ callee.vars.locals
  · rcases List.mem_append.1 hown with hown | hown
    · exact .inr (VarTable.declares_of_mem_idsOf hown)
    · exact .inr (VarTable.declares_of_mem_idsOf hown)
  · rw [KeyMap.contains, hplaces.kept id hown] at hid
    exact .inl hid

/-- Appending statements does nothing but that. -/
lemma ScopeM.of_forM_append {stmts : List Stmt} {S S' : Scope}
    (h : stmts.forM append S = .ok () S') :
    S'.bindings = S.bindings ∧ S'.vars = S.vars := by
  cases hbuffer : S.buffer with
  | some buffer =>
    rw [forM_append_eq stmts hbuffer] at h
    cases h
    exact ⟨rfl, rfl⟩
  | none =>
    cases stmts with
    | nil =>
      cases h
      exact ⟨rfl, rfl⟩
    | cons s rest =>
      change (append s >>= fun _ => rest.forM append) S = _ at h
      rw [bind_of_error (append_of_none hbuffer s)] at h
      cases h

/-- The walk vouches for what it is given inside of a callee, whichever variables of it are bound. -/
def Walker.VouchesInside (site : Site) (callee : VarTable) (w : Walker StackM) : Prop :=
  ∀ bindings, callee.BindsOver site.bindings bindings → w.VouchesAt { site with bindings }

/-- The variable is one of the callee, or stands for something at the site, or is one of the first `n`
ones. -/
def Site.knownTo (site : Site) (callee : VarTable) (n : Nat) (id : VarId) : Bool :=
  callee.declares id || site.bindings.contains id || below n id

namespace StackM

variable {site : Site} {w : Walker StackM}

/-- What a trailing return gives is vouched for. -/
lemma vouches_returned (hw : w.VouchesAt site) (value : Option Expr) :
    Vouches site (returned w value) (fun e n => e.Reads (below n))
      fun _ n => ∀ e, value = some e → e.Reads (known site.bindings n) := by
  cases value with
  | none => exact .pure fun _ _ e he => by cases he
  | some e =>
    refine (hw.expr e).mono (fun _ _ h => h) fun _ n _ he e' he' => ?_
    cases he'
    exact he

/-- The statements of a callee and what it returns are walked over. -/
lemma vouches_body (hw : w.VouchesAt site) (leading : List Stmt) (value : Option Expr) :
    Vouches site (do
      w.block leading
      let result ← returned w value
      let stmts ← ofScope ScopeM.takeStatements
      let S ← ofScope get
      return (result, stmts, S.effects)) (fun r n => r.1.Reads (below n))
      fun _ n => Stmt.BlockReads (known site.bindings n) leading ∧
        ∀ e, value = some e → e.Reads (known site.bindings n) := by
  have hget : Vouches site (ofScope get) (fun _ _ => True) fun _ _ => True :=
    .ofScope fun S S₁ S' hact => by
      cases hact
      exact ⟨rfl, Nat.le_refl _, fun _ _ _ _ => trivial⟩
  have htake : Vouches site (ofScope ScopeM.takeStatements) (fun _ _ => True) fun _ _ => True :=
    .takeStatements fun _ _ _ => trivial
  exact .bind (hw.block leading) fun _ => .bind (vouches_returned hw value) fun _ =>
    .skip htake fun _ => .skip hget fun _ => .pure fun _ hresult =>
      ⟨hresult, fun hvalue => ⟨trivial, fun hleading => ⟨hleading, hvalue⟩⟩⟩

/-- A callee is walked over in a scope of its own, in which its variables are bound. -/
lemma vouches_subMethod {callee : MethodBody} {leading : List Stmt} {value : Option Expr}
    (hsplit : callee.splitReturn? = some (leading, value))
    (hw : w.VouchesInside site callee.vars) (effects : List Effects) (values : List Bool)
    {args : List Expr} (hlength : callee.parameters.length = args.length) :
    Vouches site (nested (fun S => { S with buffer := some [], effects := .bottom S.vars.frame })
      (fun outer inner =>
        { inner with
          bindings := outer.bindings
          buffer := outer.buffer
          effects := outer.effects })
      (spliced w callee effects values args leading value)) (fun r n => r.1.Reads (below n))
      fun _ n => Stmt.BlockReads (site.knownTo callee.vars n) callee.stmts := by
  intro st r st' hst hrun
  obtain ⟨st₁, hspliced, rfl⟩ := of_nested_eq_ok hrun
  obtain ⟨_, st₂, hfirst, hrest⟩ := exists_of_bind_eq_ok hspliced
  obtain ⟨S₂, hpass, rfl⟩ := of_ofScope_eq_ok hfirst
  obtain ⟨_, st₃, hsecond, hbody⟩ := exists_of_bind_eq_ok hrest
  obtain ⟨S₃, hfreshen, rfl⟩ := of_ofScope_eq_ok hsecond
  obtain ⟨hsize, hplaced⟩ := Pass.bindsOver_of_placed rfl hlength hpass hfreshen
  have hcontains : callee.vars.BindsOver site.bindings S₃.bindings := hst.bindings ▸ hplaced
  obtain ⟨marks, hgrown, hgood⟩ := vouches_body (hw S₃.bindings hcontains) leading value
    { st with scope := S₃ } r st₁ ⟨rfl, hst.stack⟩ hbody
  refine ⟨marks, ⟨rfl, hgrown.stack, Nat.le_trans hsize hgrown.size_le, hgrown.marks⟩,
    fun n hn hr => ?_⟩
  obtain ⟨hmarks, hleading, hvalue⟩ := hgood n hn hr
  have hmono : ∀ id, known S₃.bindings n id = true → site.knownTo callee.vars n id = true := by
    intro id hid
    rcases Bool.or_eq_true_iff.1 hid with hid | hid
    · rcases hcontains id hid with hid | hid <;> simp [Site.knownTo, hid]
    · simp [Site.knownTo, hid]
  exact ⟨hmarks, Stmt.blockNodes_iff.2 (MethodBody.forall_stmts_of_splitReturn hsplit
    (Stmt.blockNodes_iff.1 (hleading.mono hmono)) (fun e he => (hvalue e he).mono hmono) rfl)⟩

/-- The callee is inlined only if it reads and stores into its own variables, those that are bound, and
declared ones. -/
abbrev VouchesCallee (site : Site) (callee : MethodBody) (args : List Expr)
    (x : StackM (Option Expr)) : Prop :=
  Vouches site x (fun r n => ∀ e ∈ r, e.Reads (below n)) fun r n => r.isSome = true →
    (∀ a ∈ args, a.Reads (below n)) ∧ Stmt.BlockReads (site.knownTo callee.vars n) callee.stmts

/-- A refusal inlines nothing. -/
lemma vouches_refuse (location : Nat) (method : MethodRef) (refusal : Pass.Refusal)
    {passes : Option Expr → Nat → Prop} {good : Nat → Prop} :
    Vouches site (ofScope (Pass.refuse location method refusal)) passes
      fun r n => r.isSome = true → good n :=
  .ofScope fun S r S' hact => by
    cases hact
    exact ⟨rfl, Nat.le_refl _, fun _ _ _ _ hsome => by cases hsome⟩

/-- A callee that is spliced in is vouched for. -/
lemma vouches_splice {callee : MethodBody} (hw : w.VouchesInside site callee.vars) (location : Nat)
    {args : List Expr} (hlength : callee.parameters.length = args.length) :
    VouchesCallee site callee args (splice w location callee args) := by
  rw [splice]
  cases hsplit : callee.splitReturn? with
  | none => exact vouches_refuse location callee.method .earlyReturn
  | some split =>
    have heffects : Vouches site (ofScope (ScopeM.look fun S => args.mapM (Expr.effects S.vars)))
        (fun _ _ => True) fun _ n => ∀ a ∈ args, a.Reads (below n) :=
      .look fun S _ n _ hn hE _ a ha => (Expr.reads_of_mapM hE a ha).mono (below_mono hn)
    have hvalues : Vouches site
        (ofScope (ScopeM.look fun S => .ok (args.map (Expr.isValue S.vars))))
        (fun _ _ => True) fun _ _ => True :=
      .look fun _ _ _ _ _ _ _ => trivial
    have happend : ∀ stmts : List Stmt, Vouches site (ofScope (stmts.forM ScopeM.append))
        (fun _ _ => True) fun _ _ => True := fun stmts => .ofScope fun S _ S' hact => by
      obtain ⟨hbindings, hvars⟩ := ScopeM.of_forM_append hact
      exact ⟨hbindings, Nat.le_of_eq (congrArg VarTable.size hvars.symm), fun _ _ _ _ => trivial⟩
    have haddEffects : ∀ E : Effects, Vouches site (ofScope (ScopeM.addEffects E))
        (fun _ _ => True) fun _ _ => True := fun E => .ofScope fun S _ S' hact => by
      cases hact
      exact ⟨rfl, Nat.le_refl _, fun _ _ _ _ => trivial⟩
    exact .bind heffects fun effects => .skip hvalues fun values =>
      .bind (vouches_subMethod hsplit hw effects values hlength) fun r =>
        .skip (happend _) fun _ => .skip (haddEffects _) fun _ => .pure fun _ hr =>
          ⟨hr r.1 rfl, fun hcallee => ⟨trivial, fun hargs _ => ⟨hargs, hcallee⟩⟩⟩

/-- A callee that arguments are substituted into is vouched for. -/
lemma vouches_substitute (location : Nat) (callee : MethodBody) (args : List Expr) :
    VouchesCallee site callee args (ofScope (Pass.substitute location callee args)) := by
  refine .ofScope fun S r S' hact => ?_
  have hlogged := Pass.loggedTo_substitute location callee args S
  rw [hact] at hlogged
  obtain ⟨events, hS'⟩ := hlogged
  obtain rfl : S' = _ := hS'
  refine ⟨rfl, Nat.le_refl _, fun _ n hn _ hsome => ?_⟩
  obtain ⟨result, rfl⟩ := Option.isSome_iff_exists.1 hsome
  obtain ⟨hcallee, hargs⟩ := Pass.inScope_of_substitute hact
  have hown : Stmt.BlockReads callee.vars.declares callee.stmts :=
    Stmt.blockNodes_mono (fun _ => readsOnly_of_inScope) hcallee
  exact ⟨fun a ha => (hargs a ha).mono (below_mono hn), hown.mono fun id hid => by
    simp [Site.knownTo, hid]⟩

/-- Whichever way a callee is brought in, it is vouched for. -/
lemma vouches_attempt {callee : MethodBody} (hw : w.VouchesInside site callee.vars) (location : Nat)
    {args : List Expr} (hlength : callee.parameters.length = args.length) :
    VouchesCallee site callee args (attempt w location callee args) := by
  have hbuffered : Vouches site (ofScope (ScopeM.look fun S => .ok S.hasBuffer))
      (fun _ _ => True) fun _ _ => True :=
    .look fun _ _ _ _ _ _ _ => trivial
  refine .skip hbuffered fun buffered => ?_
  split
  · exact vouches_splice hw location hlength
  · exact vouches_substitute location callee args

end StackM

/-! ## Calls -/

/-- What is bound at the site is declared by the methods that are being inlined there. The lowest one
on the stack is the method that is simplified, of which nothing is bound. -/
structure Site.Inherits (site : Site) : Prop where
  stack_ne_nil : site.stack ≠ []
  declaresIn : ∀ id, site.bindings.contains id = true →
    site.setting.declaresIn site.stack.dropLast id = true

/-- When a callee is pushed, its own variables may be bound, too. -/
lemma Site.Inherits.push {site : Site} (h : site.Inherits) {method : MethodRef}
    {callee : MethodBody} (hbody : site.setting.body? method = some callee)
    {bindings : KeyMap VarId Expr} (hbindings : callee.vars.BindsOver site.bindings bindings) :
    Site.Inherits ⟨site.setting, bindings, method :: site.stack⟩ where
  stack_ne_nil := List.cons_ne_nil _ _
  declaresIn id hid := by
    rw [List.dropLast_cons_of_ne_nil h.stack_ne_nil, Setting.declaresIn, List.any_cons,
      Bool.or_eq_true, hbody]
    exact (hbindings id hid).symm.imp_right (h.declaresIn id)

namespace Vouches

variable {A : Type} {site : Site} {passes good : A → Nat → Prop}

/-- The stack is looked at first. -/
lemma theStack {k : List MethodRef → StackM A} (h : Vouches site (k site.stack) passes good) :
    Vouches site (StackM.theStack >>= k) passes good := by
  intro st a st' hst hrun
  have hlook : StackM.theStack st = some (.ok site.stack, st) := by
    rw [← hst.stack]
    rfl
  rw [StackM.bind_of_ok hlook] at hrun
  exact h st a st' hst hrun

/-- A mark is made. -/
lemma mark {m : Mark} (h : ∀ n, m.Sound site.setting n) :
    Vouches site (StackM.mark m) (fun _ _ => True) fun _ _ => True := by
  intro st a st' hst hrun
  cases hrun
  exact ⟨[m], ⟨rfl, rfl, Nat.le_refl _, rfl⟩, fun n _ _ =>
    ⟨fun m' hm' => List.mem_singleton.1 hm' ▸ h n, trivial⟩⟩

/-- A method is pushed for the time of the work. -/
lemma pushing {method : MethodRef} {x : StackM A}
    (h : Vouches { site with stack := method :: site.stack } x passes good) :
    Vouches site (StackM.pushing method x) passes good := by
  intro st a st' hst hrun
  obtain ⟨p, hx, hp⟩ := Option.map_eq_some_iff.1 hrun
  obtain ⟨r, st₁⟩ := p
  cases hp
  obtain ⟨marks, hgrown, hgood⟩ := h { st with stack := method :: st.stack } a st₁
    ⟨hst.bindings, congrArg (method :: ·) hst.stack⟩ hx
  exact ⟨marks, ⟨hgrown.bindings, congrArg List.tail hgrown.stack, hgrown.size_le, hgrown.marks⟩,
    hgood⟩

end Vouches

namespace StackM

/-- Inlining vouches for the arguments of a call, and notes callees that are vouched for. -/
lemma vouches_tryInline (setting : Setting) (location fuel : Nat) {site : Site}
    (hsetting : site.setting = setting) (hsite : site.Inherits) (method : MethodRef)
    (args : List Expr) :
    VouchesArguments site args (tryInline setting location fuel method args) := by
  induction fuel generalizing site method args with
  | zero =>
    intro st a st' _ hrun
    cases hrun
  | succ fuel ih =>
    subst hsetting
    have hnone : VouchesArguments site args (pure none) := .pure fun _ _ hsome => by
      cases hsome
    rw [tryInline]
    refine .theStack (.skip (.mark fun _ => trivial) fun _ => ?_)
    split
    · exact hnone
    split
    · exact hnone
    rename_i callee hbody
    split
    · exact vouches_refuse location method .tooLarge
    split
    · exact vouches_refuse location method .notInlinable
    split
    · exact vouches_refuse location method .wrongArity
    rename_i harity
    have hlength : callee.parameters.length =
        (Pass.marshalled site.setting.policy method callee args).length := by
      rw [Pass.length_marshalled, not_not.1 harity]
    have hwalker : (walker site.setting.policy.isFactory
        (tryInline site.setting location fuel)).VouchesInside
          { site with stack := method :: site.stack } callee.vars := fun _ hbindings =>
      vouchesAt_walker _ (ih rfl (hsite.push hbody hbindings))
    refine (Vouches.pushing (vouches_attempt hwalker location hlength)).bind_marking ?_
    intro r st b st' _ hrun
    cases r with
    | none =>
      cases hrun
      refine ⟨[], .refl st, fun n _ hpasses => ⟨hpasses, fun _ => ⟨List.forall_mem_nil _, ?_⟩⟩⟩
      intro hsome
      cases hsome
    | some e =>
      cases hrun
      refine ⟨[.inlined site.stack method], ⟨rfl, rfl, Nat.le_refl _, rfl⟩, fun n _ hpasses => ?_⟩
      -- marshalling hides neither the arguments nor the result
      have he : e.Reads (below n) := (Pass.received_iff fun _ => Iff.rfl).1 (hpasses _ rfl)
      refine ⟨fun e' he' => Option.some.inj he' ▸ he, fun hgood => ?_⟩
      obtain ⟨hargs, hcallee⟩ := hgood rfl
      refine ⟨fun m hm => ?_, fun _ => (Pass.forall_marshalled_iff fun _ => Iff.rfl).1 hargs⟩
      obtain rfl := List.mem_singleton.1 hm
      intro callee' hbody'
      obtain rfl := Option.some.inj (hbody.symm.trans hbody')
      refine hcallee.mono fun id hid => ?_
      simp only [Site.knownTo, Bool.or_eq_true] at hid ⊢
      exact hid.imp_left (Or.imp_right (hsite.declaresIn id))

/-- The top-level statements of a method are vouched for. -/
lemma vouches_topStmts {site : Site} (hsite : site.Inherits) (fuel location : Nat)
    (stmts : List Stmt) :
    Vouches site (topStmts site.setting fuel location stmts) (fun _ _ => True)
      fun _ n => Stmt.BlockReads (known site.bindings n) stmts := by
  induction stmts generalizing location with
  | nil => exact .pure fun _ _ => rfl
  | cons s rest ih =>
    have hwalker : (topLevel site.setting fuel location).VouchesAt site :=
      vouchesAt_walker _ (vouches_tryInline site.setting location fuel rfl hsite)
    exact .bind (hwalker.stmt s) fun _ => (ih (location + 1)).mono (fun _ _ h => h)
      fun _ _ _ hrest => ⟨trivial, fun hs => Bool.and_eq_true_iff.2 ⟨hs, hrest⟩⟩

end StackM

/-! ## Variables that inlining declares -/

/-- If the work succeeds and has not inlined anything, the variables are as they were. -/
def StackM.DeclaresByInlining {A : Type} (x : StackM A) : Prop :=
  ∀ st a st', x st = some (.ok a, st') → ∃ marks, st'.marks = st.marks ++ marks ∧
    (st'.scope.vars = st.scope.vars ∨ ∃ stack method, .inlined stack method ∈ marks)

namespace StackM.DeclaresByInlining

variable {A B : Type} {x : StackM A}

lemma ofScope {act : ScopeM A} (h : ∀ S a S', act S = .ok a S' → S'.vars = S.vars) :
    DeclaresByInlining (StackM.ofScope act) := by
  intro st a st' hrun
  obtain ⟨S, hact, rfl⟩ := of_ofScope_eq_ok hrun
  exact ⟨[], (List.append_nil _).symm, .inl (h st.scope a S hact)⟩

lemma look (f : Scope → Except Fault A) :
    DeclaresByInlining (StackM.ofScope (ScopeM.look f)) := by
  intro st a st' hrun
  obtain ⟨-, rfl⟩ := of_look_eq_ok hrun
  exact ⟨[], (List.append_nil _).symm, .inl rfl⟩

protected lemma pure (a : A) : DeclaresByInlining (pure a) := by
  intro st a' st' hrun
  cases hrun
  exact ⟨[], (List.append_nil _).symm, .inl rfl⟩

protected lemma bind {k : A → StackM B} (hx : DeclaresByInlining x)
    (hk : ∀ a, DeclaresByInlining (k a)) : DeclaresByInlining (x >>= k) := by
  intro st b st₂ hrun
  obtain ⟨a, st₁, hfirst, hsecond⟩ := exists_of_bind_eq_ok hrun
  obtain ⟨marks, hmarks, hvars⟩ := hx st a st₁ hfirst
  obtain ⟨marks', hmarks', hvars'⟩ := hk a st₁ b st₂ hsecond
  refine ⟨marks ++ marks', by rw [hmarks', hmarks, List.append_assoc], ?_⟩
  rcases hvars with hvars | ⟨stack, method, hmem⟩
  · rcases hvars' with hvars' | ⟨stack, method, hmem⟩
    · exact .inl (hvars'.trans hvars)
    · exact .inr ⟨stack, method, List.mem_append_right _ hmem⟩
  · exact .inr ⟨stack, method, List.mem_append_left _ hmem⟩

lemma nested {enter : Scope → Scope} {leave : Scope → Scope → Scope} (hx : DeclaresByInlining x)
    (henter : ∀ S, (enter S).vars = S.vars) (hleave : ∀ S S', (leave S S').vars = S'.vars) :
    DeclaresByInlining (StackM.nested enter leave x) := by
  intro st a st' hrun
  obtain ⟨st₁, hrun₁, rfl⟩ := of_nested_eq_ok hrun
  obtain ⟨marks, hmarks, hvars⟩ := hx _ a st₁ hrun₁
  refine ⟨marks, hmarks, hvars.imp_left fun hvars => ?_⟩
  exact (hleave _ _).trans (hvars.trans (henter _))

lemma withoutStatements (h : DeclaresByInlining x) :
    DeclaresByInlining (StackM.nested (fun S => { S with buffer := none })
      (fun outer inner => { inner with buffer := outer.buffer, effects := outer.effects }) x) :=
  h.nested (fun _ => rfl) fun _ _ => rfl

lemma collect {x : StackM Unit} (h : DeclaresByInlining x) :
    DeclaresByInlining (StackM.collect x) := by
  have htake : DeclaresByInlining (StackM.ofScope ScopeM.takeStatements) :=
    .ofScope fun _ _ _ hact => (ScopeM.of_takeStatements hact).2
  refine nested (.bind h fun _ => htake) (fun S => ?_) fun S S' => ?_
  · rfl
  · rfl

end StackM.DeclaresByInlining

/-- Work that follows something else and succeeds: what it follows succeeds, and marks are added. -/
lemma Follows.after_of_ok {A : Type} {good : List MethodRef → Prop} {ample : Prop}
    {stack : List MethodRef} {act : ScopeM A} {x : StackM A}
    (h : Follows good ample stack A act x) {st st' : Stacked} (hst : st.stack = stack) {a : A}
    (hx : x st = some (.ok a, st')) :
    ∃ S marks, act st.scope = .ok a S ∧ st' = st.after S marks := by
  obtain ⟨marks, hended⟩ := h.ended_of_some hst hx
  cases hact : act st.scope with
  | error fault S =>
    rw [hact] at hended
    cases hended
  | ok a' S =>
    rw [hact] at hended
    cases hended
    exact ⟨S, marks, rfl, rfl⟩

namespace StackM

variable {setting : Setting}

/-- What is inlined is noted. -/
lemma exists_inlined_of_tryInline {location fuel : Nat} {method : MethodRef} {args : List Expr}
    {st st' : Stacked} {e : Expr}
    (h : tryInline setting location fuel method args st = some (.ok (some e), st')) :
    ∃ marks, st'.marks = st.marks ++ marks ∧ .inlined st.stack method ∈ marks := by
  cases fuel with
  | zero => cases h
  | succ fuel =>
    rw [tryInline] at h
    obtain ⟨stack, st₁, hstack, h⟩ := exists_of_bind_eq_ok h
    cases hstack
    obtain ⟨_, st₂, hmark, h⟩ := exists_of_bind_eq_ok h
    cases hmark
    split at h
    · cases h
    cases hbody : setting.body? method with
    | none =>
      rw [hbody] at h
      cases h
    | some callee =>
      rw [hbody] at h
      dsimp only at h
      split at h
      · cases h
      split at h
      · cases h
      split at h
      · cases h
      obtain ⟨r, st₃, hpushing, h⟩ := exists_of_bind_eq_ok h
      cases r with
      | none => cases h
      | some result =>
        have hfollows := (follows_attempt (related_anyStack setting fuel location
          (method :: st.stack)) location callee
            (Pass.marshalled setting.policy method callee args)).pushing
        have hstack : (Stacked.mk st.scope st.stack
          (st.marks ++ [.tried st.stack method])).stack = st.stack := rfl
        obtain ⟨S, marks, -, rfl⟩ := hfollows.after_of_ok hstack hpushing
        cases h
        exact ⟨[.tried st.stack method] ++ marks ++ [.inlined st.stack method],
          by simp [Stacked.after], by simp⟩

/-- A call declares variables only if it is inlined. -/
lemma declaresByInlining_tryInline (location fuel : Nat) (method : MethodRef) (args : List Expr) :
    DeclaresByInlining (tryInline setting location fuel method args) := by
  intro st r st' hrun
  cases r with
  | some e =>
    obtain ⟨marks, hmarks, hinlined⟩ := exists_inlined_of_tryInline hrun
    exact ⟨marks, hmarks, .inr ⟨st.stack, method, hinlined⟩⟩
  | none =>
    have hfollows : Follows (fun _ => True) (Ample setting fuel st.stack) st.stack _
        (Pass.inline setting location (setting.config.depth + 1 - st.stack.length) st.stack method
          args) (tryInline setting location fuel method args) :=
      follows_tryInline (fun _ _ _ => trivial) location fuel trivial method args
    obtain ⟨S, marks, hinline, rfl⟩ := hfollows.after_of_ok rfl hrun
    obtain ⟨events, rfl⟩ := Pass.loggedTo_of_inline hinline
    exact ⟨marks, rfl, .inl rfl⟩

/-- Walking over terms declares variables only where something is inlined. -/
lemma related_declaresByInlining (fuel location : Nat) :
    Walker.StmtRelated (fun _ _ x => x.DeclaresByInlining)
      ⟨setting.policy.isFactory, fun _ _ => pure none⟩ (topLevel setting fuel location) where
  pure := .pure
  bind := .bind
  look f _ := .look f
  withoutStatements := .withoutStatements
  isFactory := rfl
  inline := declaresByInlining_tryInline location fuel
  emit s := .ofScope fun S a S' hact => by
    obtain ⟨stmts, E, -, -, rfl⟩ := ScopeM.exists_of_emit_eq_ok hact
    rfl
  collect := .collect

lemma declaresByInlining_topStmts (fuel location : Nat) (stmts : List Stmt) :
    DeclaresByInlining (topStmts setting fuel location stmts) := by
  induction stmts generalizing location with
  | nil => exact .pure ()
  | cons s rest ih =>
    exact .bind ((related_declaresByInlining fuel location).stmt s) fun _ => ih (location + 1)

end StackM

/-! ## Simplified bodies -/

/-- How the variables are resolved that `body` and the callees inlined into it read and store into, if
`out` is what is left of `body`. -/
structure Setting.Resolves (setting : Setting) (body out : MethodBody) (marks : List Mark) :
    Prop where
  /-- Those of the body itself are declared in the end. -/
  reads : Stmt.BlockReads out.vars.declares body.stmts
  /-- If nothing is inlined, no variable is declared on the way. -/
  vars_eq : (∀ stack method, .inlined stack method ∉ marks) → out.vars = body.vars
  /-- Those of a callee are its own, or were bound for a callee around it, or are declared in the
  end. -/
  callees : ∀ m ∈ marks, m.Sound setting out.vars.size

/-- Where no statement can be emitted, a callee is inlined only if it mentions no variable but its own,
pointers included. -/
lemma Pass.inScope_of_inline {setting : Setting} {location depth : Nat} {active : List MethodRef}
    {method : MethodRef} {args : List Expr} {S S' : Scope} {e : Expr} (hbuffer : S.buffer = none)
    (h : inline setting location depth active method args S = .ok (some e) S') :
    ∃ callee, setting.body? method = some callee ∧
      Stmt.blockNodes (inScope callee.vars.size) callee.stmts = true := by
  cases depth with
  | zero => cases h
  | succ depth =>
    rcases inline_cases setting location depth active method args S with
      hnone | ⟨refusal, hrefuse⟩ | ⟨callee, hbody, -, hinline⟩
    · rw [hnone] at h
      cases h
    · rw [hrefuse] at h
      cases h
    · rw [hinline] at h
      obtain ⟨r, S₁, hattempt, hrest⟩ := exists_of_bind_eq_ok h
      have hasBuffer : S.hasBuffer = false := by rw [Scope.hasBuffer, hbuffer]; rfl
      rw [attempt, hasBuffer] at hattempt
      cases r with
      | none => cases hrest
      | some result => exact ⟨callee, hbody, (inScope_of_substitute hattempt).1⟩

/-- The outermost scope of a method: nothing is bound. -/
lemma Site.inherits_root (setting : Setting) (method : MethodRef) :
    Site.Inherits ⟨setting, ∅, [method]⟩ where
  stack_ne_nil := List.cons_ne_nil _ _
  declaresIn _ hid := by cases hid

/-- Where the simplification of a body starts. -/
def Stacked.start (setting : Setting) (body : MethodBody) (log : EventLog) : Stacked :=
  ⟨Scope.root body.method body.vars (log ++ Pass.openingEvents setting.config body),
    [body.method], []⟩

/-- With a stack that may be high enough, the same statements are collected. -/
lemma StackM.exists_marks_of_simplify {setting : Setting} {fuel : Nat}
    (hfuel : setting.config.depth + 1 < fuel) {body : MethodBody} {log log' : EventLog}
    {out : Simplified} (h : Inliner.simplify setting body log = .ok out log') :
    ∃ stmts S marks, out.body.vars = S.vars ∧
      simplify setting fuel body log = some (Inliner.simplify setting body log, marks) ∧
      collect (topStmts setting fuel 0 body.stmts) (.start setting body log) =
        some (.ok stmts, (Stacked.start setting body log).after S marks) := by
  obtain ⟨stmts, S, hscope, hbody, -⟩ := exists_of_simplify_eq_ok h
  have hfollows := follows_collect (follows_topStmts Setting.IsStack.cons fuel
    (Setting.IsStack.singleton setting body.method) 0 body.stmts)
  rcases hfollows (.start setting body log) rfl with ⟨-, hnot⟩ | ⟨marks, -, hcollect⟩
  · have hample : Ample setting fuel [body.method] := ⟨by omega, by omega⟩
    exact absurd hample hnot
  · refine ⟨stmts, S, marks, by rw [hbody], simplify_of_collect rfl hcollect, ?_⟩
    rw [hcollect, Stacked.start, hscope]
    rfl

/-- If a body is simplified, each variable that it reads or stores into is declared in the end, be it
because something that was inlined has declared it; if nothing was inlined, the variables are those of
the body. Each variable that an inlined callee reads or stores into is one of its own, or was bound
for a callee in which it was inlined in turn, or is declared in the end. Where no statement can be
emitted, a callee that is inlined mentions none but its own variables. -/
theorem resolves_of_simplify {setting : Setting} {fuel : Nat}
    (hfuel : setting.config.depth + 1 < fuel) :
    (∀ (body : MethodBody) (log : EventLog) (out : Simplified) (log' : EventLog),
      simplify setting body log = .ok out log' → ∃ marks,
        StackM.simplify setting fuel body log = some (simplify setting body log, marks) ∧
          setting.Resolves body out.body marks) ∧
    ∀ (location depth : Nat) (active : List MethodRef) (method : MethodRef) (args : List Expr)
      (S S' : Scope) (e : Expr), S.buffer = none →
      Pass.inline setting location depth active method args S = .ok (some e) S' →
      ∃ callee, setting.body? method = some callee ∧
        Stmt.blockNodes (inScope callee.vars.size) callee.stmts = true := by
  refine ⟨fun body log out log' hsimplify => ?_, fun location depth active method args S S' e =>
    Pass.inScope_of_inline⟩
  obtain ⟨stmts, S, marks, hvars, hstack, hcollect⟩ :=
    StackM.exists_marks_of_simplify hfuel hsimplify
  refine ⟨marks, hstack, ?_⟩
  -- what the walk vouches for holds, since a list of statements always passes
  have hvouches := Vouches.collect
    (StackM.vouches_topStmts (Site.inherits_root setting body.method) fuel 0 body.stmts)
  obtain ⟨marks₁, hgrown, hgood⟩ := hvouches _ _ _ ⟨rfl, rfl⟩ hcollect
  obtain rfl : marks = marks₁ := hgrown.marks
  obtain ⟨hmarks, hreads⟩ := hgood S.vars.size (Nat.le_refl _) trivial
  obtain ⟨marks₂, hmarks₂, hdeclared⟩ :=
    (StackM.declaresByInlining_topStmts fuel 0 body.stmts).collect _ _ _ hcollect
  obtain rfl : marks = marks₂ := hmarks₂
  refine ⟨?_, fun hnone => ?_, ?_⟩
  · rw [hvars]
    exact hreads.mono fun id hid => (Bool.or_eq_true_iff.1 hid).elim (fun h => by cases h) fun h => h
  · rw [hvars]
    exact hdeclared.resolve_right fun ⟨stack, method, hmem⟩ => hnone stack method hmem
  · rw [hvars]
    exact hmarks

/-! ## Variables that are captured -/

/-- A static method without parameters. -/
def getRef : MethodRef :=
  ⟨⟨"lib", "Store", false⟩, "get", 0, true⟩

/-- The setting in which only the method `get` is known, with the given variables; it returns its
variable 0. -/
def getSetting (vars : VarTable) : Setting where
  body? method :=
    if method = getRef then some ⟨getRef, false, vars, [.ret (some (.readVar ⟨0⟩))]⟩ else none
  policy := .permissive false [] [] []
  config := {}

/-- A table with one local. -/
def oneLocal : VarTable :=
  VarTable.empty.declareLocal "x" intType {}

/-- A body with a local `x` that returns what `get` does. -/
def returnGet : MethodBody :=
  ⟨⟨⟨"lib", "Store", false⟩, "main", 0, true⟩, false, oneLocal, [.ret (some (.call getRef []))]⟩

/-- A body without variables that stores what `get` returns, and then returns its variable 0. -/
def storeGet : MethodBody :=
  ⟨⟨⟨"lib", "Store", false⟩, "main", 0, true⟩, false, .empty,
    [.assign (.static totalField) (.call getRef []), .ret (some (.readVar ⟨0⟩))]⟩

/-- A body without variables that returns a pointer to its variable 9. -/
def returnPointer : MethodBody :=
  ⟨⟨⟨"lib", "Store", false⟩, "main", 0, true⟩, false, .empty, [.ret (some (.addressOf (.var ⟨9⟩)))]⟩

/-- The call of `get` is inlined, and what it returns is the local of its caller. -/
lemma exists_marks_returnGet :
    ∃ out log marks, simplify (getSetting .empty) returnGet [] = .ok out log ∧
      StackM.simplify (getSetting .empty) 6 returnGet [] =
        some (simplify (getSetting .empty) returnGet [], marks) ∧
      .inlined [returnGet.method] getRef ∈ marks ∧
      out.body.stmts = [.ret (some (.readVar ⟨0⟩))] := by
  have hsimplify : ∃ out log, simplify (getSetting .empty) returnGet [] = .ok out log ∧
      out.body.stmts = [.ret (some (.readVar ⟨0⟩))] := ⟨_, _, rfl, rfl⟩
  obtain ⟨out, log, hsimplify, hstmts⟩ := hsimplify
  obtain ⟨-, -, marks, -, hstack, -⟩ := StackM.exists_marks_of_simplify
    (show (getSetting .empty).config.depth + 1 < 6 by decide) hsimplify
  have hmarks : (StackM.simplify (getSetting .empty) 6 returnGet []).map (fun p => p.2) =
      some [.tried [returnGet.method] getRef, .inlined [returnGet.method] getRef] := by
    decide +kernel
  rw [hstack] at hmarks
  obtain rfl : marks = _ := Option.some.inj hmarks
  exact ⟨out, log, _, hsimplify, hstack, by simp, hstmts⟩

/-- The variable 0 that `get` does not declare is taken for the local of its caller. -/
theorem resolves_returnGet :
    (getSetting .empty).config.depth + 1 < 6 ∧ ∃ out log marks,
      simplify (getSetting .empty) returnGet [] = .ok out log ∧
      (getSetting .empty).Resolves returnGet out.body marks ∧
      .inlined [returnGet.method] getRef ∈ marks ∧
      out.body.stmts = [.ret (some (.readVar ⟨0⟩))] := by
  have hfuel : (getSetting .empty).config.depth + 1 < 6 := by decide
  obtain ⟨out, log, marks, hsimplify, hstack, hinlined, hstmts⟩ := exists_marks_returnGet
  obtain ⟨marks', hstack', hresolves⟩ := (resolves_of_simplify hfuel).1 returnGet [] out log hsimplify
  obtain rfl : marks = marks' := by
    rw [hstack] at hstack'
    exact (Prod.mk.inj (Option.some.inj hstack')).2
  exact ⟨hfuel, out, log, marks, hsimplify, hresolves, hinlined, hstmts⟩

/-- None of this can be sharpened to variables that are declared where they are mentioned. A body may
read a variable that only an inlined callee has declared, an inlined callee may read a variable of the
method that it is inlined into, and a pointer may be made to a variable that is declared nowhere. -/
theorem not_forall_undeclared_rejected :
    (¬ ∀ (setting : Setting) (body : MethodBody) (log : EventLog) (out : Simplified)
      (log' : EventLog), simplify setting body log = .ok out log' →
        Stmt.BlockReads body.vars.declares body.stmts) ∧
    (¬ ∀ (setting : Setting) (fuel : Nat) (body : MethodBody) (log : EventLog) (out : Simplified)
      (log' : EventLog) (marks : List Mark) (stack : List MethodRef) (method : MethodRef)
      (callee : MethodBody), simplify setting body log = .ok out log' →
        StackM.simplify setting fuel body log = some (simplify setting body log, marks) →
        .inlined stack method ∈ marks → setting.body? method = some callee →
          Stmt.BlockReads callee.vars.declares callee.stmts) ∧
    ¬ ∀ (setting : Setting) (body : MethodBody) (log : EventLog) (out : Simplified)
      (log' : EventLog), simplify setting body log = .ok out log' →
        Stmt.blockNodes (inScope out.body.vars.size) body.stmts = true := by
  refine ⟨fun hall => ?_, fun hall => ?_, fun hall => ?_⟩
  · have hreads := hall (getSetting oneLocal) storeGet [] _ _ rfl
    exact absurd hreads (by decide)
  · obtain ⟨out, log, marks, hsimplify, hstack, hinlined, -⟩ := exists_marks_returnGet
    have hreads := hall _ _ _ _ _ _ _ _ _ _ hsimplify hstack hinlined rfl
    exact absurd hreads (by decide)
  · have hnodes := hall (getSetting oneLocal) returnPointer [] _ _ rfl
    exact absurd hnodes (by decide)

end Inliner
