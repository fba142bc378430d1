import Inliner.Proofs.InlinedFrame
import Inliner.Proofs.Simulation
import Inliner.Proofs.WalkRules

/-!
# Inlined calls keep their meaning

A call that is replaced by the body of its callee means running that body in a new frame. Where
statements can be emitted, the body is spliced in: the arguments are passed, the locals get new
names, and the leading statements and the returned expression are simplified with the treatment of
calls for one level less (`exists_splice`). Elsewhere the arguments are substituted into the
returned expression (`exists_substitute`). By induction on the number of levels, the treatment of
calls is sound (`sound_inline`).
-/

namespace Inliner

variable {V H X : Type}

/-! ## Running a callee that returns at its end -/

/-- The split at a trailing return. -/
lemma MethodBody.splitReturn?_eq_some {b : MethodBody} {leading : List Stmt} {value : Option Expr}
    (h : b.splitReturn? = some (leading, value)) :
    Stmt.blockContainsReturn leading = false ∧
      (b.stmts = leading ++ [.ret value] ∨ b.stmts = leading ∧ value = none) := by
  unfold splitReturn? at h
  split at h
  rename_i leading' value' hsplit
  split at h
  · cases h
  · rename_i hreturn
    cases h
    refine ⟨by simpa using hreturn, ?_⟩
    split at hsplit
    · rename_i last hlast
      cases hsplit
      left
      obtain ⟨init, hinit⟩ := List.getLast?_eq_some_iff.1 hlast
      rw [hinit, List.dropLast_concat]
    · cases hsplit
      exact .inr ⟨rfl, rfl⟩

/-- The leading statements and the trailing return are statements of the method. -/
lemma MethodBody.forall_of_splitReturn {b : MethodBody} {leading : List Stmt}
    {value : Option Expr} {P : Stmt → Prop} (h : b.splitReturn? = some (leading, value))
    (hb : ∀ s ∈ b.stmts, P s) :
    (∀ s ∈ leading, P s) ∧ ∀ e, value = some e → P (.ret (some e)) := by
  obtain ⟨-, hstmts | ⟨hstmts, rfl⟩⟩ := splitReturn?_eq_some h
  · rw [hstmts, List.forall_mem_append, List.forall_mem_singleton] at hb
    exact ⟨hb.1, fun e he => he ▸ hb.2⟩
  · exact ⟨hstmts ▸ hb, fun e he => by cases he⟩

/-- There are no other statements, unless nothing is returned. -/
lemma MethodBody.forall_stmts_of_splitReturn {b : MethodBody} {leading : List Stmt}
    {value : Option Expr} {P : Stmt → Prop} (h : b.splitReturn? = some (leading, value))
    (hleading : ∀ s ∈ leading, P s) (hvalue : ∀ e, value = some e → P (.ret (some e)))
    (hnone : P (.ret none)) : ∀ s ∈ b.stmts, P s := by
  obtain ⟨-, hstmts | ⟨hstmts, -⟩⟩ := splitReturn?_eq_some h
  · rw [hstmts, List.forall_mem_append, List.forall_mem_singleton]
    refine ⟨hleading, ?_⟩
    cases value with
    | none => exact hnone
    | some e => exact hvalue e rfl
  · rwa [hstmts]

/-- The leading statements and what is returned are parts of the method. -/
lemma MethodBody.nodes_of_splitReturn {b : MethodBody} {leading : List Stmt} {value : Option Expr}
    {p : Expr → Bool} (h : b.splitReturn? = some (leading, value))
    (hb : Stmt.blockNodes p b.stmts = true) :
    Stmt.blockNodes p leading = true ∧ (∀ e, value = some e → e.allNodes p = true) ∧
      ∀ id, Stmt.blockAssigns id leading = true → Stmt.blockAssigns id b.stmts = true := by
  have hparts := forall_of_splitReturn h (Stmt.blockNodes_iff.1 hb)
  refine ⟨Stmt.blockNodes_iff.2 hparts.1, hparts.2, fun id hid => ?_⟩
  obtain ⟨-, hstmts | ⟨hstmts, -⟩⟩ := splitReturn?_eq_some h
  · rw [hstmts, Stmt.blockAssigns_append, hid]
    rfl
  · rwa [hstmts]

namespace Machine

variable {m : Machine V H X}

/-- What a trailing return gives. -/
def returned (m : Machine V H X) (env : Env V) : Option Expr → EStateM X H V
  | some e => m.value env e
  | none => pure (m.constant .null)

/-- A method that returns at its end runs its leading statements and then evaluates what it
returns. -/
lemma run_of_splitReturn {b : MethodBody} {leading : List Stmt} {value : Option Expr}
    (h : b.splitReturn? = some (leading, value)) (actuals : List V) :
    m.run b actuals =
      m.runBlock leading (m.newFrame b.vars actuals) >>= fun env => m.returned env value := by
  obtain ⟨hreturn, hstmts | ⟨hstmts, rfl⟩⟩ := MethodBody.splitReturn?_eq_some h
  · have hlast : ∀ env : Env V, (m.exec (.ret value) env >>= fun p =>
        pure (p.2.getD (m.constant .null))) = m.returned env value := by
      intro env
      cases value <;> simp [exec, returned]
    rw [run, hstmts, execBlock_append_of_noReturn hreturn, bind_assoc]
    simp only [execBlock_singleton]
    exact congrArg _ (funext hlast)
  · rw [run, hstmts, execBlock_of_noReturn hreturn, bind_assoc]
    rfl

/-- Simple expressions have values, whatever the heap is. -/
lemma values_of_isSimple {n : Nat} {es : List Expr} (hes : ∀ e ∈ es, e.IsSimple n) (env : Env V) :
    ∃ vs, m.values env es = pure vs ∧
      ∀ (i : Nat) e, es[i]? = some e → ∃ v, vs[i]? = some v ∧ m.value env e = pure v := by
  induction es with
  | nil => exact ⟨[], by simp, fun i e he => by cases he⟩
  | cons e es ih =>
    obtain ⟨v, hv⟩ := (hes e (by simp)).exists_value (m := m) env
    obtain ⟨vs, hvs, hget⟩ := ih fun a ha => hes a (by simp [ha])
    refine ⟨v :: vs, by rw [values_cons, hv, hvs, pure_bind, pure_bind], fun i a ha => ?_⟩
    cases i with
    | zero =>
      cases ha
      exact ⟨v, rfl, hv⟩
    | succ i => exact hget i a ha

/-- In a new frame a local holds the default of its type. -/
lemma newFrame_local {vars : VarTable} {id : VarId} {v : Variable} (hv : vars.get? id = some v)
    (hs : v.storage = .localVar) (actuals : List V) :
    m.newFrame vars actuals id = m.default v.type := by
  have hnot : id ∉ vars.arguments := fun hmem =>
    VarTable.not_mem_locals hmem (VarTable.mem_idsOf.2 ⟨v, hv, hs⟩)
  simp [newFrame, List.idxOf?_eq_none_iff.2 hnot, hv]

/-- After the arguments were passed and the locals renamed, the variables of the callee stand for
what they hold in a new frame. -/
lemma stands_newFrame {callee t : VarTable} {written : VarId → Bool} {n : Nat} {S₁ S₂ : Scope}
    {τ : Env V} {vs : List V} (hlays : Lays written n S₁ S₂ callee.locals)
    (hlocals : StandForLocals callee S₁ S₂ callee.locals)
    (hvs : ∀ (i : Nat) e, (callee.arguments.map S₁.readVar)[i]? = some e →
      ∃ v, vs[i]? = some v ∧ m.value τ e = pure v)
    (ht : S₂.vars.ExtendedTo t) (hfresh : m.Fresh S₁.vars t τ) :
    m.Stands S₂ callee.size τ (m.newFrame callee vs) := by
  intro id hid
  obtain ⟨v, hv⟩ := VarTable.exists_get? hid
  cases hs : v.storage with
  | argument =>
    have hmem : id ∈ callee.arguments := VarTable.mem_idsOf.2 ⟨v, hv, hs⟩
    obtain ⟨i, hi⟩ := Option.isSome_iff_exists.1 (List.isSome_idxOf?.2 hmem)
    obtain ⟨hlt, hget, -⟩ := List.idxOf?_eq_some_iff.1 hi
    obtain ⟨w, hw, hvalue⟩ := hvs i (S₁.readVar id) (by
      rw [List.getElem?_map, List.getElem?_eq_getElem hlt, hget]
      rfl)
    rw [hlays.kept id (VarTable.not_mem_locals hmem), hvalue, newFrame_argument hi hw]
  | localVar =>
    obtain ⟨v', w, target, hv', hread, hlo, hw, htype⟩ :=
      hlocals id (VarTable.mem_idsOf.2 ⟨v, hv, hs⟩)
    rw [hv] at hv'
    cases hv'
    have htarget : t.get? target = some w := by
      rw [ht.get?_eq (List.getElem?_eq_some_iff.1 hw).1, hw]
    rw [hread, value_readVar, newFrame_local hv hs, hfresh target w hlo htarget, htype]

end Machine

/-! ## Splicing -/

/-- Simplifies what a trailing return gives. -/
def Pass.returned (calls : CallTreatment) : Option Expr → ScopeM Expr
  | some e => expr calls e
  | none => return .const .null

/-- Binds the variables of a callee, and simplifies its leading statements and what it returns. -/
def Pass.spliced (calls : CallTreatment) (callee : MethodBody) (effects : List Effects)
    (values : List Bool) (args : List Expr) (leading : List Stmt) (value : Option Expr) :
    ScopeM (Expr × List Stmt × Effects) := do
  passArguments callee effects values 0 (callee.parameters.zip args)
  ScopeM.freshenLocals callee.vars
  block calls leading
  let result ← returned calls value
  let stmts ← ScopeM.takeStatements
  return (result, stmts, (← get).effects)

/-- A callee that returns at its end is spliced in. -/
lemma Pass.splice_eq {calls : CallTreatment} {location : Nat} {callee : MethodBody}
    {args : List Expr} {leading : List Stmt} {value : Option Expr}
    (hsplit : callee.splitReturn? = some (leading, value)) {S : Scope} {effects : List Effects}
    (heffects : args.mapM (Expr.effects S.vars) = .ok effects) :
    splice calls location callee args S = (do
      let (result, stmts, done) ← ScopeM.withSubMethod
        (spliced calls callee effects (args.map (Expr.isValue S.vars)) args leading value)
      stmts.forM ScopeM.append
      ScopeM.addEffects done
      return some result : ScopeM (Option Expr)) S := by
  have hget : (get : ScopeM Scope) S = .ok S S := rfl
  rw [splice, hsplit]
  simp only
  rw [bind_of_ok hget, heffects]
  cases value <;> rfl

/-- Where splicing looks at the scope, it computes something from it. -/
lemma Pass.splice_look {calls : CallTreatment} {location : Nat} {callee : MethodBody}
    {args : List Expr} {leading : List Stmt} {value : Option Expr}
    (hsplit : callee.splitReturn? = some (leading, value)) :
    splice calls location callee args = (do
      let effects ← ScopeM.look fun S => args.mapM (Expr.effects S.vars)
      let values ← ScopeM.look fun S => .ok (args.map (Expr.isValue S.vars))
      let r ← ScopeM.withSubMethod (spliced calls callee effects values args leading value)
      r.2.1.forM ScopeM.append
      ScopeM.addEffects r.2.2
      return some r.1) := by
  rw [splice, hsplit]
  cases value <;> rfl

/-- Statements are appended to a buffer. -/
lemma forM_append_eq {S : Scope} (stmts : List Stmt) {buffer : List Stmt}
    (hbuffer : S.buffer = some buffer) :
    stmts.forM ScopeM.append S = .ok () { S with buffer := some (buffer ++ stmts) } := by
  induction stmts generalizing S buffer with
  | nil =>
    rw [List.append_nil, ← hbuffer]
    rfl
  | cons s rest ih =>
    change (ScopeM.append s >>= fun _ => rest.forM ScopeM.append) S = _
    rw [bind_of_ok (ScopeM.append_eq hbuffer s),
      ih (S := { S with buffer := some (buffer ++ [s]) }) rfl]
    simp

/-- What the nested scope of a callee held in its buffer is appended to that of the call, and what it
bound is forgotten. -/
lemma Pass.splice_of_spliced {calls : CallTreatment} {callee : MethodBody} {args : List Expr}
    {leading : List Stmt} {value : Option Expr}
    (hsplit : callee.splitReturn? = some (leading, value)) {S S₁ : Scope} {effects : List Effects}
    (heffects : args.mapM (Expr.effects S.vars) = .ok effects) (hbuffer : S.hasBuffer = true)
    {result : Expr} {D : List Stmt}
    (hspliced : spliced calls callee effects (args.map (Expr.isValue S.vars)) args leading value
      { S with buffer := some [], effects := .bottom S.vars.frame } =
        .ok (result, D, S₁.effects) { S₁ with buffer := some [] }) (location : Nat) :
    splice calls location callee args S = .ok (some result)
      { S₁ with
        bindings := S.bindings
        buffer := S.buffer.map (· ++ D)
        effects := S.effects.absorb S₁.effects } := by
  obtain ⟨buffer, hS⟩ := Option.isSome_iff_exists.1 hbuffer
  have hsub : ScopeM.withSubMethod (spliced calls callee effects
      (args.map (Expr.isValue S.vars)) args leading value) S = .ok (result, D, S₁.effects)
        { S₁ with bindings := S.bindings, buffer := S.buffer, effects := S.effects } := by
    simp only [ScopeM.withSubMethod, ScopeM.nested, hspliced]
  rw [splice_eq hsplit heffects, bind_of_ok hsub]
  change (D.forM ScopeM.append >>= fun _ => ScopeM.addEffects S₁.effects >>= fun _ =>
    pure (some result)) _ = _
  rw [bind_of_ok (forM_append_eq (S := { S₁ with
    bindings := S.bindings, buffer := S.buffer, effects := S.effects }) D hS), hS]
  rfl

section Splice

variable {m : Machine V H X} {calls : CallTreatment} {S : Scope}

/-- What a trailing return gives is simplified. -/
lemma exists_returned (hcalls : calls.Sound m) {k : Nat} {value : Option Expr}
    (hvalue : ∀ e, value = some e → e.allNodes (plain k) = true) (hbinds : S.Binds k) :
    ∃ result S' D, Pass.returned calls value S = .ok result S' ∧
      Emits S.vars.size S S' D ∧ Stmt.blockContainsReturn D = false ∧
      result.allNodes (plain S'.vars.size) = true ∧
      ∀ {τ σ : Env V}, m.Stands S k τ σ → m.Fresh S.vars S'.vars τ →
        (m.runBlock D τ >>= fun τ' => m.value τ' result) = m.returned σ value := by
  cases value with
  | none =>
    refine ⟨.const .null, S, [], rfl, .silent rfl rfl rfl, rfl, rfl, fun _ _ => ?_⟩
    rw [Machine.runBlock_nil, pure_bind, Machine.value, Evaluator.eval]
    rfl
  | some e =>
    obtain ⟨e', S', D, hexpr, htranslates⟩ := walks_expr hcalls (hvalue e rfl) S hbinds
    exact ⟨e', S', D, hexpr, htranslates.emits, htranslates.noReturn,
      htranslates.nodes e' (by simp), fun hstands hfresh => htranslates.value_eq hstands hfresh⟩

/-- Effects can be computed of several expressions with declared variables. -/
lemma exists_mapM_effects {vars : VarTable} {args : List Expr}
    (hargs : ∀ a ∈ args, a.allNodes (inScope vars.size) = true) :
    ∃ effects, args.mapM (Expr.effects vars) = .ok effects := by
  induction args with
  | nil => exact ⟨[], rfl⟩
  | cons a args ih =>
    obtain ⟨E, hE⟩ := Expr.exists_effects (hargs a (by simp))
    obtain ⟨Es, hEs⟩ := ih fun b hb => hargs b (by simp [hb])
    exact ⟨E :: Es, by rw [List.mapM_cons, hE, hEs]; rfl⟩

/-- A call that is left alone emits nothing. -/
lemma exists_refuse (location : Nat) (method : MethodRef) (refusal : Pass.Refusal) :
    ∃ S', Pass.refuse location method refusal S = .ok none S' ∧ Emits S.vars.size S S' [] := by
  obtain ⟨S', hrecord, hsilent⟩ := ScopeM.record_emits (S := S) S.vars.size .inlineRejected
    (some location) (method.render ++ ": " ++ refusal.reason)
  refine ⟨S', ?_, hsilent⟩
  rw [Pass.refuse, bind_of_ok hrecord]
  rfl

/-- The callee's statements are spliced in: its parameters and locals are bound, and its leading
statements and what it returns are simplified. -/
lemma exists_spliced (hcalls : calls.Sound m) {callee : MethodBody} {args : List Expr}
    {leading : List Stmt} {value : Option Expr} (effects : List Effects)
    (hsplit : callee.splitReturn? = some (leading, value))
    (hcallee : Stmt.blockNodes (plain callee.vars.size) callee.stmts = true)
    (hlength : callee.parameters.length = args.length)
    (hargs : ∀ a ∈ args, a.allNodes (plain S.vars.size) = true) (hbuffer : S.buffer = some []) :
    ∃ (result : Expr) (S' : Scope) (D : List Stmt),
      Pass.spliced calls callee effects (args.map (Expr.isValue S.vars)) args leading value S =
        .ok (result, D, S'.effects) { S' with buffer := some [] } ∧
      Inlines m S { S' with bindings := S.bindings } D args (m.run callee) result := by
  obtain ⟨hreturn, -⟩ := MethodBody.splitReturn?_eq_some hsplit
  obtain ⟨hleading, hvalue, hassigns⟩ := MethodBody.nodes_of_splitReturn hsplit hcallee
  have hvalues : ∀ (j : Nat) a, args[j]? = some a →
      (args.map (Expr.isValue S.vars)).getD (0 + j) false = true → a.IsSimple S.vars.size := by
    intro j a ha hj
    have hisValue : a.isValue S.vars = true := by simpa [List.getD_eq_getElem?_getD, ha] using hj
    exact .of_isValue (hargs a (List.mem_of_getElem? ha)) hisValue
  obtain ⟨S₁, D₁, hpass, hpasses⟩ := exists_passArguments (m := m) effects _ hlength
    (callee.vars.nodup_idsOf .argument) (fun p hp => (VarTable.mem_idsOf.1 hp).imp fun _ h => h.1)
    (by rw [Scope.hasBuffer, hbuffer]; rfl) le_rfl hargs hvalues
  have hn := hpasses.lays.vars.size_le
  obtain ⟨S₂, hfreshen, hlays, hbuffer₂, hlocals⟩ := exists_freshenLocals
    (fun id => Stmt.blockAssigns id callee.stmts) callee.vars hn
  have hall := hpasses.lays.append hlays (fun id hid => VarTable.not_mem_locals hid) le_rfl
  have hbinds : S₂.Binds callee.vars.size := fun id hid =>
    hall.isSimple le_rfl (VarTable.mem_arguments_append_locals hid)
  have hpassed : S₁.buffer = some D₁ := by
    have h := hpasses.emits.buffer
    rw [hbuffer] at h
    exact h
  obtain ⟨S₃, D₃, hblock, htranscribes⟩ := walks_block hcalls hleading hbinds
    (by rw [Scope.hasBuffer, hbuffer₂, hpassed]; rfl) hall.vars.size_le fun id hid =>
      hall.owns (fun id' hid' => VarTable.mem_arguments_append_locals hid')
        (Stmt.index_lt_of_blockAssigns hleading hid) (hassigns id hid)
  obtain ⟨result, S₄, D₄, hresult, hemits₄, hreturn₄, hnodes₄, hreturned⟩ :=
    exists_returned hcalls hvalue (htranscribes.emits.binds hbinds)
  have hbuffer₄ : S₄.buffer = some (D₁ ++ (D₃ ++ D₄)) := by
    rw [hemits₄.buffer, htranscribes.emits.buffer, hbuffer₂, hpassed]
    simp
  refine ⟨result, S₄, D₁ ++ (D₃ ++ D₄), ?_, ?_, ?_, hnodes₄, fun {τ} hfresh => ?_⟩
  · rw [Pass.spliced, bind_of_ok hpass, bind_of_ok hfreshen, bind_of_ok hblock, bind_of_ok hresult,
      bind_of_ok (takeStatements_eq hbuffer₄)]
    rfl
  · have hrenamed : Emits S.vars.size { S₁ with bindings := S.bindings }
        { S₂ with bindings := S.bindings } [] := {
      bindings := rfl
      buffer := by simp [hbuffer₂]
      nothing := fun _ => rfl
      vars := hlays.vars
      assigned := fun id hid => by cases hid
      nodes := rfl }
    have hbody := (htranscribes.emits.rebind S.bindings).trans (hemits₄.rebind S.bindings)
      (hall.vars.trans htranscribes.emits.vars).size_le
    exact hpasses.emits.trans (hrenamed.trans hbody le_rfl) le_rfl
  · rw [Stmt.blockContainsReturn_append, Stmt.blockContainsReturn_append, hpasses.noReturn,
      htranscribes.noReturn hreturn, hreturn₄]
    rfl
  · rw [hpasses.values_eq τ, Machine.runBlock_append hpasses.noReturn, bind_assoc, bind_assoc]
    funext heap
    refine bind_congr_of_ok fun τ₁ heap₁ hrun => congrFun ?_ heap₁
    have hsimple : ∀ e ∈ callee.parameters.map S₁.readVar, e.IsSimple S₁.vars.size := by
      intro e he
      obtain ⟨id, hid, rfl⟩ := List.mem_map.1 he
      exact hpasses.lays.isSimple le_rfl hid
    obtain ⟨vs, hvs, hget⟩ := Machine.values_of_isSimple (m := m) hsimple τ₁
    have hfresh₁ : m.Fresh S₁.vars S₄.vars τ₁ := hpasses.emits.fresh hrun hfresh
    have hbody := htranscribes.emits.vars.trans hemits₄.vars
    have hstands := Machine.stands_newFrame hlays hlocals hget hbody hfresh₁
    have hsimulates := htranscribes.simulates_runBlock hreturn hemits₄.vars hstands
      (hfresh₁.right hlays.vars fun _ _ => rfl)
    rw [hvs, pure_bind, Machine.run_of_splitReturn hsplit,
      Machine.runBlock_append (htranscribes.noReturn hreturn), bind_assoc]
    exact hsimulates.bind_eq fun τ₃ σ₃ hafter => hreturned hafter.1 hafter.2

/-- Where statements can be emitted, a call is left alone or its callee is spliced in. -/
lemma exists_splice (hcalls : calls.Sound m) (location : Nat) {callee : MethodBody}
    {args : List Expr} (hcallee : Stmt.blockNodes (plain callee.vars.size) callee.stmts = true)
    (hlength : callee.parameters.length = args.length)
    (hargs : ∀ a ∈ args, a.allNodes (plain S.vars.size) = true) (hbuffer : S.hasBuffer = true) :
    (∃ S', Pass.splice calls location callee args S = .ok none S' ∧ Emits S.vars.size S S' []) ∨
      ∃ result S' D, Pass.splice calls location callee args S = .ok (some result) S' ∧
        Inlines m S S' D args (m.run callee) result := by
  cases hsplit : callee.splitReturn? with
  | none =>
    left
    rw [Pass.splice, hsplit]
    exact exists_refuse location callee.method .earlyReturn
  | some split =>
    right
    obtain ⟨leading, value⟩ := split
    obtain ⟨effects, heffects⟩ := exists_mapM_effects fun a ha =>
      Expr.allNodes_mono (fun _ => inScope_of_plain) (hargs a ha)
    obtain ⟨result, S₁, D, hspliced, hinlines⟩ :=
      exists_spliced hcalls effects hsplit hcallee hlength
      (S := { S with buffer := some [], effects := .bottom S.vars.frame }) hargs rfl
    refine ⟨result, _, D, Pass.splice_of_spliced hsplit heffects hbuffer hspliced location, ?_⟩
    exact ⟨hinlines.emits.ofNested hbuffer, hinlines.noReturn, hinlines.nodes, hinlines.value_eq⟩

end Splice

/-! ## Substitution -/

namespace Substitution

variable {vars : VarTable} {args : List Expr} {st st₁ : State} {u : Bool}

/-- After a walk that succeeded, the next one goes on where it ended. -/
lemma bind_of_ok {A B : Type} {x : Walk A} {f : A → Walk B} {a : A} (h : x st = .ok (a, st₁)) :
    (x >>= f) st = f a st₁ := by
  change (x st >>= fun p => f p.1 p.2) = _
  rw [h]
  rfl

/-- One walk after the other. -/
lemma givesOr_bind {A B : Type} {fine : Fault → Prop} {x : Walk A} {f : A → Walk B}
    {Q : A × State → Prop} {R : B × State → Prop} (h : GivesOr fine (x st) Q)
    (hf : ∀ a st', Q (a, st') → GivesOr fine (f a st') R) : GivesOr fine ((x >>= f) st) R :=
  GivesOr.bind h fun p => hf p.1 p.2

/-! ### A rule for invariants of the substitution -/

/-- What has to hold at the nodes of an expression, so that a walk from a state with the property `inv`
makes good expressions of sources and keeps the property, or is at fault in a way that is fine. -/
structure Keeps (vars : VarTable) (args : List Expr) (fine : Fault → Prop) (inv : State → Prop)
    (source good : Expr → Prop) : Prop where
  part : ∀ {e a : Expr}, source e → a ∈ e.parts → source a
  argument : ∀ {id : VarId} {u : Bool} {st : State}, source (.readVar id) → inv st →
    GivesOr fine (argument args id u st) fun r => good r.1 ∧ inv r.2
  storage : ∀ {id : VarId}, source (.addressOf (.var id)) →
    fine (.malformed (.parameterAsStorage id) none)
  node : ∀ {e : Expr} {es : List Expr} {st : State}, source e → e.namesVar = false →
    es.length = e.parts.length → (∀ a ∈ es, good a) → inv st →
      GivesOr fine (own vars (e.withParts es) st) fun r => good r.1 ∧ inv r.2

namespace Keeps

variable {fine : Fault → Prop} {inv : State → Prop} {source good : Expr → Prop}

/-- Several expressions, one after the other. -/
lemma exprs {es : List Expr} (hes : ∀ a ∈ es, ∀ st, inv st →
      GivesOr fine (expr vars args a u st) fun r => good r.1 ∧ inv r.2) (hst : inv st) :
    GivesOr fine (exprs vars args es u st) fun r =>
      r.1.length = es.length ∧ (∀ a ∈ r.1, good a) ∧ inv r.2 := by
  induction es generalizing st with
  | nil => exact ⟨rfl, List.forall_mem_nil _, hst⟩
  | cons e es ih =>
    obtain ⟨he, hes⟩ := List.forall_mem_cons.1 hes
    rw [Substitution.exprs]
    refine givesOr_bind (he st hst) fun e' st₁ he' => ?_
    refine givesOr_bind (ih hes he'.2) fun es' st₂ hes' => ?_
    exact ⟨congrArg Nat.succ hes'.1, List.forall_mem_cons.2 ⟨he'.1, hes'.2.1⟩, hes'.2.2⟩

/-- The walk makes a good expression of a source. -/
theorem expr (h : Keeps vars args fine inv source good) {e : Expr} (he : source e) (hst : inv st) :
    GivesOr fine (expr vars args e u st) fun r => good r.1 ∧ inv r.2 := by
  induction e using Expr.induct generalizing u st with
  | strict e hstrict ih =>
    cases hread : e.variableRead? with
    | some id =>
      obtain rfl := Expr.eq_readVar hread
      rw [Substitution.expr]
      exact h.argument he hst
    | none =>
      by_cases haddress : ∃ id, e = .addressOf (.var id)
      · obtain ⟨id, rfl⟩ := haddress
        exact h.storage he
      · have hne : ∀ id, e ≠ .addressOf (.var id) := fun id hid => haddress ⟨id, hid⟩
        rw [expr_eq_of_strict hstrict hread hne]
        refine givesOr_bind (exprs (fun a ha st hst => ih a ha (h.part he ha) hst) hst)
          fun es st₁ hes => ?_
        exact h.node he (Expr.namesVar_eq_false hread hne) hes.1 hes.2.1 hes.2.2
  | logical op left right ihl ihr =>
    rw [Substitution.expr]
    refine givesOr_bind (ihl (h.part he (by simp [Expr.parts])) hst) fun left' st₁ hl => ?_
    refine givesOr_bind (ihr (h.part he (by simp [Expr.parts])) hl.2) fun right' st₂ hr => ?_
    have hes : ∀ a ∈ [left', right'], good a := by simp [hl.1, hr.1]
    exact h.node he rfl (by rfl) hes hr.2
  | conditional cond onTrue onFalse ihc iht ihf =>
    rw [Substitution.expr]
    refine givesOr_bind (ihc (h.part he (by simp [Expr.parts])) hst) fun cond' st₁ hc => ?_
    refine givesOr_bind (iht (h.part he (by simp [Expr.parts])) hc.2) fun onTrue' st₂ ht => ?_
    refine givesOr_bind (ihf (h.part he (by simp [Expr.parts])) ht.2) fun onFalse' st₃ hf => ?_
    have hes : ∀ a ∈ [cond', onTrue', onFalse'], good a := by simp [hc.1, ht.1, hf.1]
    exact h.node he rfl (by rfl) hes hf.2

/-- A substitution that is accepted gives a good expression. -/
lemma inlined (h : Keeps vars args fine inv source good) {parameters : List VarId} {e : Expr}
    (hstart : GivesOr fine (ArgumentTracker.start vars parameters args) fun t =>
      inv ⟨t, .bottom vars.frame⟩) (he : source e) :
    GivesOr fine (inlined? vars parameters args e) fun r => ∀ e', r = some e' → good e' := by
  refine GivesOr.bind (Q := fun p => good p.1) (hstart.bind fun t ht => ?_) fun p hp e' he' => ?_
  · exact (h.expr he ht).mono fun _ hr => hr.1
  · split at he'
    · cases he'
      exact hp
    · cases he'

end Keeps

/-! ### Substitution without faults -/

/-- The operation of a node with declared variables can be accounted for. -/
lemma exists_own {e : Expr} (he : e.allNodes (inScope vars.size) = true) (st : State) :
    ∃ st', own vars e st = .ok (e, st') ∧ st'.tracker = st.tracker := by
  obtain ⟨E, hE⟩ := Effects.exists_ofSteps (f := vars.frame) (Expr.stepOk_own he)
  refine ⟨{ st with done := st.done.absorb E }, ?_, rfl⟩
  unfold own
  rw [hE]
  rfl

/-- Every parameter in scope has a position, at which there is an argument. -/
def Positions (t : ArgumentTracker) (args : List Expr) (k : Nat) : Prop :=
  ∀ id : VarId, id.index < k → ∃ i a, t.position? id = some i ∧ args[i]? = some a

/-- An occurrence of a parameter does not change positions. -/
lemma Positions.visit {k : Nat} {t : ArgumentTracker} (h : Positions t args k) (i : Nat)
    (done : Effects) (u : Bool) : Positions (t.visit i done u) args k := by
  intro id hid
  obtain ⟨j, a, hj, ha⟩ := h id hid
  refine ⟨j, a, ?_, ha⟩
  rw [← hj, ArgumentTracker.position?, ArgumentTracker.position?, ArgumentTracker.parameters_visit]

/-- Nodes that pass the test `p` name none but the first `k` variables, and point at none of them. With
other operands they pass the test `q`, which asks for variables of the table. -/
structure Carries (vars : VarTable) (k : Nat) (p q : Expr → Bool) : Prop where
  read : ∀ id : VarId, p (.readVar id) = true → id.index < k
  address : ∀ id : VarId, p (.addressOf (.var id)) = false
  node : ∀ {e : Expr} (es : List Expr), e.variableRead? = none → p e = true →
    q (e.withParts es) = true
  inScope : ∀ {e : Expr}, q e = true → inScope vars.size e = true

lemma carries_plain (vars : VarTable) (k : Nat) : Carries vars k (plain k) (plain vars.size) where
  read id h := by simpa [plain, Inliner.inScope, noPointer] using h
  address id := by simp [plain, noPointer]
  node es hread h := by
    rw [plain, Bool.and_eq_true] at h
    exact plain_withParts hread h.2 _ es
  inScope := inScope_of_plain

/-- Over parameters that have positions, the walk is never at fault. -/
lemma Carries.keeps {k : Nat} {p q : Expr → Bool} (h : Carries vars k p q)
    (hargs : ∀ a ∈ args, a.allNodes q = true) :
    Keeps vars args (fun _ => False) (fun st => Positions st.tracker args k)
      (fun e => e.allNodes p = true) fun e => e.allNodes q = true where
  part he ha := (Expr.allNodes_iff.1 he).2 _ ha
  argument {id u st} he hst := by
    obtain ⟨i, a, hi, ha⟩ := hst id (h.read id (Expr.allNodes_iff.1 he).1)
    have hget : (get : Walk State) st = .ok (st, st) := rfl
    rw [Substitution.argument, bind_of_ok hget, hi]
    simp only [ha]
    exact ⟨hargs a (List.mem_of_getElem? ha), hst.visit i st.done u⟩
  storage {id} he := by
    have hself := (Expr.allNodes_iff.1 he).1
    rw [h.address] at hself
    cases hself
  node {e es st} he hvar hlength hes hst := by
    have hnodes : (e.withParts es).allNodes q = true := by
      refine Expr.allNodes_iff.2 ⟨h.node es (Expr.variableRead?_eq_none hvar)
        (Expr.allNodes_iff.1 he).1, ?_⟩
      rwa [Expr.parts_withParts hlength]
    obtain ⟨st', hown, htracker⟩ :=
      exists_own (Expr.allNodes_mono (fun _ => h.inScope) hnodes) st
    rw [hown]
    exact ⟨hnodes, by rwa [htracker]⟩

/-- A substitution of arguments into an expression of a callee without locals is accepted or refused,
but never at fault. -/
lemma exists_inlined {callee : MethodBody} {p q : Expr → Bool} {e : Expr}
    (hcarries : Carries vars callee.vars.size p q) (hargs : ∀ a ∈ args, a.allNodes q = true)
    (he : e.allNodes p = true) (hlocals : callee.vars.locals = [])
    (hlength : callee.parameters.length = args.length) :
    ∃ r, inlined? vars callee.parameters args e = .ok r ∧
      ∀ result, r = some result → result.allNodes q = true := by
  obtain ⟨effects, heffects⟩ := exists_mapM_effects fun a ha =>
    Expr.allNodes_mono (fun _ => hcarries.inScope) (hargs a ha)
  obtain ⟨t, ht⟩ : ∃ t, ArgumentTracker.start vars callee.parameters args = .ok t := by
    unfold ArgumentTracker.start
    rw [if_neg (by simpa using hlength), heffects]
    exact ⟨_, rfl⟩
  have hparameters := (ArgumentTracker.start_eq_ok ht).1
  have hpos : Positions t args callee.vars.size := by
    intro id hid
    have hmem : id ∈ callee.parameters := Machine.mem_arguments hlocals hid
    obtain ⟨i, hi⟩ := Option.isSome_iff_exists.1 (List.isSome_idxOf?.2 hmem)
    obtain ⟨hlt, -, -⟩ := List.idxOf?_eq_some_iff.1 hi
    have hnodup : t.parameters.Nodup := hparameters ▸ callee.vars.nodup_idsOf .argument
    refine ⟨i, _, ?_, List.getElem?_eq_getElem (hlength ▸ hlt)⟩
    rw [ArgumentTracker.position?_eq_idxOf? hnodup, hparameters, hi]
  refine ((hcarries.keeps hargs).inlined ?_ he).exists_ok
  rw [ht]
  exact hpos

end Substitution

lemma Pass.locals_eq_nil {callee : MethodBody} (hstorage : needsStorage callee = false) :
    callee.vars.locals = [] := by
  rw [needsStorage, Bool.or_eq_false_iff] at hstorage
  simpa using hstorage.1

/-- A callee that needs no storage and just returns an expression is tried; any other is refused. -/
lemma Pass.substitute_cases (location : Nat) (callee : MethodBody) (args : List Expr) (S : Scope) :
    (∃ refusal, substitute location callee args S = refuse location callee.method refusal S) ∨
    ∃ e, callee.stmts = [.ret (some e)] ∧ needsStorage callee = false ∧
      substitute location callee args S =
        (ScopeM.ofExcept (Substitution.inlined? S.vars callee.parameters args e) >>= fun r =>
          match r with
          | none => refuse location callee.method .immovableArguments
          | some result => pure (some result)) S := by
  rw [substitute]
  cases hsingle : callee.singleReturn? with
  | none => exact .inl ⟨_, rfl⟩
  | some e =>
    have hstmts : callee.stmts = [.ret (some e)] := by
      unfold MethodBody.singleReturn? at hsingle
      split at hsingle
      · cases hsingle
        assumption
      · cases hsingle
    cases hstorage : needsStorage callee with
    | true =>
      refine .inl ⟨.needsStorage, ?_⟩
      simp only [if_true]
    | false =>
      refine .inr ⟨e, hstmts, rfl, ?_⟩
      simp only [Bool.false_eq_true, if_false]
      rfl

section Substitute

variable {m : Machine V H X} {S : Scope}

/-- Where no statement can be emitted, a call is left alone or replaced by what its callee
returns. -/
lemma exists_substitute (location : Nat) {callee : MethodBody} {args : List Expr}
    (hcallee : Stmt.blockNodes (plain callee.vars.size) callee.stmts = true)
    (hlength : callee.parameters.length = args.length)
    (hargs : ∀ a ∈ args, a.allNodes (plain S.vars.size) = true) :
    (∃ S', Pass.substitute location callee args S = .ok none S' ∧ Emits S.vars.size S S' []) ∨
      ∃ result, Pass.substitute location callee args S = .ok (some result) S ∧
        Inlines m S S [] args (m.run callee) result := by
  rcases Pass.substitute_cases location callee args S with
    ⟨refusal, hrefuse⟩ | ⟨e, hstmts, hstorage, hsubstitute⟩
  · rw [hrefuse]
    exact .inl (exists_refuse location callee.method refusal)
  · have he : e.allNodes (plain callee.vars.size) = true := by
      rw [hstmts] at hcallee
      simpa [Stmt.blockNodes, Stmt.allNodes] using hcallee
    have hlocals := Pass.locals_eq_nil hstorage
    obtain ⟨r, hr, hresult⟩ := Substitution.exists_inlined
      (Substitution.carries_plain S.vars callee.vars.size) hargs he hlocals hlength
    rw [hsubstitute, hr]
    cases r with
    | none => exact .inl (exists_refuse location callee.method .immovableArguments)
    | some result =>
      refine .inr ⟨result, rfl, .silent rfl rfl rfl, rfl, hresult result rfl, fun {τ} _ => ?_⟩
      have hscope : ∀ {n : Nat} {a : Expr}, a.allNodes (plain n) = true →
          a.allNodes (inScope n) = true := fun h => Expr.allNodes_mono (fun _ => inScope_of_plain) h
      rw [Machine.runBlock_nil, pure_bind, Machine.value_inlined hr hlocals hlength (hscope he)
        (fun a ha => hscope (hargs a ha)) (hscope (hresult result rfl))]
      refine congrArg _ (funext fun vs => ?_)
      rw [Machine.run, hstmts, Machine.execBlock_singleton, Machine.exec]
      simp

end Substitute

/-! ## The treatment of calls -/

/-- The methods that are known are not imported, and have nothing to do with pointers. -/
def Setting.IsPlain (setting : Setting) : Prop :=
  ∀ {method : MethodRef} {callee : MethodBody}, setting.body? method = some callee →
    callee.isImport = false ∧ Stmt.blockNodes (plain callee.vars.size) callee.stmts = true

/-- Calls of the methods that are known, and creations of objects by factories, run their bodies. -/
structure Machine.Agrees (m : Machine V H X) (setting : Setting) : Prop where
  call : ∀ {method : MethodRef} {callee : MethodBody} {actuals : List V},
    setting.body? method = some callee → actuals.length = callee.parameters.length →
      m.call method actuals = m.run callee actuals
  construct : ∀ {method : MethodRef} {callee : MethodBody} {actuals : List V},
    setting.policy.isFactory method = true → setting.body? method = some callee →
      actuals.length = callee.parameters.length → m.construct method actuals = m.run callee actuals

/-- What stands for a call does every operation that agrees with the one it was made for. -/
lemma Inlines.congr {m : Machine V H X} {S S' : Scope} {D : List Stmt} {args : List Expr}
    {op op' : List V → EStateM X H V} {result : Expr} (h : Inlines m S S' D args op result)
    (hop : ∀ vs, vs.length = args.length → op' vs = op vs) : Inlines m S S' D args op' result :=
  { h with
    value_eq := fun {τ} hfresh => by
      rw [h.value_eq hfresh]
      funext heap
      refine bind_congr_of_ok fun vs heap' hvs => ?_
      rw [hop vs (Machine.length_of_values hvs)] }

/-- Later work that emits nothing is not seen. -/
lemma Inlines.after {m : Machine V H X} {S S₁ S₂ : Scope} {D : List Stmt} {args : List Expr}
    {op : List V → EStateM X H V} {result : Expr} (h : Inlines m S S₁ D args op result)
    (hvars : S₂.vars = S₁.vars) (hbindings : S₂.bindings = S₁.bindings)
    (hbuffer : S₂.buffer = S₁.buffer) : Inlines m S S₂ D args op result where
  emits := by
    have hsilent : Emits S.vars.size S₁ S₂ [] := .silent hbindings hbuffer hvars
    simpa using h.emits.trans hsilent le_rfl
  noReturn := h.noReturn
  nodes := hvars ▸ h.nodes
  value_eq := hvars ▸ h.value_eq

/-- The attempt to put a callee in the place of a call: by splicing it in where statements can be
emitted, by substitution elsewhere. -/
def Pass.attempt (calls : CallTreatment) (location : Nat) (callee : MethodBody) (args : List Expr) :
    ScopeM (Option Expr) := fun S =>
  if S.hasBuffer then Pass.splice calls location callee args S
  else Pass.substitute location callee args S

/-- An attempt leaves the call alone, or gives what stands for a run of the callee. -/
lemma exists_attempt {m : Machine V H X} {calls : CallTreatment} {S : Scope}
    (hcalls : calls.Sound m) (location : Nat) {callee : MethodBody} {args : List Expr}
    (hcallee : Stmt.blockNodes (plain callee.vars.size) callee.stmts = true)
    (hlength : callee.parameters.length = args.length)
    (hargs : ∀ a ∈ args, a.allNodes (plain S.vars.size) = true) :
    (∃ S', Pass.attempt calls location callee args S = .ok none S' ∧ Emits S.vars.size S S' []) ∨
      ∃ result S' D, Pass.attempt calls location callee args S = .ok (some result) S' ∧
        Inlines m S S' D args (m.run callee) result := by
  unfold Pass.attempt
  cases hbuffer : S.hasBuffer with
  | true => exact exists_splice hcalls location hcallee hlength hargs hbuffer
  | false =>
    rcases exists_substitute location hcallee hlength hargs with hleft | ⟨result, hrun, hinlines⟩
    · exact .inl hleft
    · exact .inr ⟨result, S, [], hrun, hinlines⟩

/-- A call is left alone, or a callee that takes as many arguments as there are is tried. -/
lemma inline_cases (setting : Setting) (location depth : Nat) (active : List MethodRef)
    (method : MethodRef) (args : List Expr) (S : Scope) :
    Pass.inline setting location (depth + 1) active method args S = .ok none S ∨
    (∃ refusal, Pass.inline setting location (depth + 1) active method args S =
      Pass.refuse location method refusal S) ∨
    ∃ callee, setting.body? method = some callee ∧ callee.parameters.length = args.length ∧
      Pass.inline setting location (depth + 1) active method args S =
        (Pass.attempt ⟨setting.policy.isFactory,
            Pass.inline setting location depth (method :: active)⟩ location callee
            (Pass.marshalled setting.policy method callee args) >>= fun result =>
          match result with
          | none => pure none
          | some result => ScopeM.record .methodInlined (some location) method.render >>= fun _ =>
            pure (some (Pass.received setting.policy method callee result))) S := by
  rw [Pass.inline]
  by_cases hactive : (!setting.config.inlining || active.contains method) = true
  · rw [if_pos hactive]
    exact .inl rfl
  rw [if_neg hactive]
  cases hbody : setting.body? method with
  | none => exact .inl rfl
  | some callee =>
    dsimp only
    by_cases hsize : setting.config.statements < callee.size
    · exact .inr (.inl ⟨_, by rw [if_pos hsize]⟩)
    by_cases hallowed : (!Pass.isAllowed setting.policy method callee) = true
    · exact .inr (.inl ⟨_, by rw [if_neg hsize, if_pos hallowed]⟩)
    by_cases hlength : callee.parameters.length ≠ args.length
    · exact .inr (.inl ⟨_, by rw [if_neg hsize, if_neg hallowed, if_pos hlength]⟩)
    refine .inr (.inr ⟨callee, rfl, not_not.1 hlength, ?_⟩)
    rw [if_neg hsize, if_neg hallowed, if_neg hlength]
    have hget : (get : ScopeM Scope) S = .ok S S := rfl
    rw [bind_of_ok hget]
    change _ = EStateM.bind (Pass.attempt _ _ _ _) _ S
    rw [EStateM.bind, Pass.attempt]
    split <;> rfl

/-- Inlining is sound at every number of levels. -/
lemma sound_inline {m : Machine V H X} {setting : Setting} (hplain : setting.IsPlain)
    (hagrees : m.Agrees setting) (location depth : Nat) (active : List MethodRef) :
    (CallTreatment.mk setting.policy.isFactory
      (Pass.inline setting location depth active)).Sound m := by
  induction depth generalizing active with
  | zero => exact fun S method args _ => .inl ⟨S, rfl, .silent rfl rfl rfl⟩
  | succ depth ih =>
    intro S method args hargs
    rcases inline_cases setting location depth active method args S with
      hnone | ⟨refusal, hrefuse⟩ | ⟨callee, hbody, hlength, hinline⟩
    · exact .inl ⟨S, hnone, .silent rfl rfl rfl⟩
    · obtain ⟨S', hrun, hsilent⟩ := exists_refuse location method refusal (S := S)
      exact .inl ⟨S', hrefuse.trans hrun, hsilent⟩
    · obtain ⟨himport, hcallee⟩ := hplain hbody
      -- a callee that is not imported is called without marshalling
      have hargs' : Pass.marshalled setting.policy method callee args = args := by
        simp [Pass.marshalled, himport]
      have hresult : ∀ r, Pass.received setting.policy method callee r = r := by
        intro r
        simp [Pass.received, himport]
      simp only [hargs', hresult] at hinline
      rcases exists_attempt (ih (method :: active)) location hcallee hlength hargs with
        ⟨S', hrun, hsilent⟩ | ⟨result, S', D, hrun, hinlines⟩
      · rw [bind_of_ok hrun] at hinline
        exact .inl ⟨S', hinline, hsilent⟩
      · rw [bind_of_ok hrun] at hinline
        refine .inr ⟨result, _, D, hinline, fun op hop => ?_⟩
        refine Inlines.congr (hinlines.after rfl rfl rfl) fun vs hvs => ?_
        rcases hop with rfl | ⟨hfactory, rfl⟩
        · exact hagrees.call hbody (hvs.trans hlength.symm)
        · exact hagrees.construct hfactory hbody (hvs.trans hlength.symm)

end Inliner
