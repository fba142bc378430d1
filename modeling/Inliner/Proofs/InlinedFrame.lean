import Inliner.Pass.Calls
import Inliner.Proofs.Translation

/-!
# The frame of an inlined callee

When a callee is spliced in, its variables are bound: a parameter either stands for its argument, or
for a new local to which the argument was assigned, and every local of the callee stands for a new
local. `Lays` describes these bindings. A variable that is stored into stands for a new local that
nothing else stands for.

Passing the arguments amounts to evaluating them: evaluating what the parameters stand for, after
the statements that were emitted, is evaluating the arguments (`Passes`). The locals stand for
locals that hold the defaults of their types (`exists_freshenLocals`).
-/

namespace Inliner

variable {V H X : Type}

/-! ## Bound variables -/

/-- From the scope `S` to the scope `S'`, the listed variables were bound. Those that are not
written stand for constants or for variables below `n`, or else for new locals, which nothing else
among the listed ones stands for. -/
structure Lays (written : VarId → Bool) (n : Nat) (S S' : Scope) (ids : List VarId) : Prop where
  vars : S.vars.ExtendedTo S'.vars
  kept : ∀ id ∉ ids, S'.readVar id = S.readVar id
  placed : ∀ id ∈ ids, (written id = false ∧ (S'.readVar id).IsSimple n) ∨
    ∃ t : VarId, S.vars.size ≤ t.index ∧ t.index < S'.vars.size ∧ S'.readVar id = .readVar t ∧
      ∀ id' ∈ ids, S'.readVar id' = .readVar t → id' = id

namespace Lays

variable {written : VarId → Bool} {n : Nat} {S S₁ S₂ : Scope} {ids ids' : List VarId} {id : VarId}

lemma nil (S : Scope) : Lays written n S S [] where
  vars := .refl _
  kept _ _ := rfl
  placed id hid := by cases hid

/-- A variable stands for an expression that is not affected by later statements. -/
lemma simple {e : Expr} (hwritten : written id = false) (he : e.IsSimple n) :
    Lays written n S (S.bound id e) [id] where
  vars := .refl _
  kept id' hid' := by
    rw [Scope.readVar_bound, if_neg (by simpa using hid')]
  placed id' hid' := by
    obtain rfl := List.mem_singleton.1 hid'
    refine .inl ⟨hwritten, ?_⟩
    rw [Scope.readVar_bound, if_pos rfl]
    exact he

/-- A variable stands for a new local. -/
lemma fresh {t : VarTable} (hvars : S.vars.ExtendedTo t) (hsize : S.vars.size < t.size)
    (hS : S₁.vars = t) (hbindings : S₁.bindings = (S.bound id (.readVar S.vars.nextId)).bindings) :
    Lays written n S S₁ [id] where
  vars := hS ▸ hvars
  kept id' hid' := by
    rw [Scope.readVar_congr hbindings, Scope.readVar_bound, if_neg (by simpa using hid')]
  placed id' hid' := by
    obtain rfl := List.mem_singleton.1 hid'
    refine .inr ⟨S.vars.nextId, le_rfl, hS ▸ hsize, ?_, fun id'' hid'' _ => ?_⟩
    · rw [Scope.readVar_congr hbindings, Scope.readVar_bound, if_pos rfl]
    · exact List.mem_singleton.1 hid''

/-- More variables are bound. -/
lemma append (h : Lays written n S S₁ ids) (h' : Lays written n S₁ S₂ ids')
    (hdisjoint : ∀ id ∈ ids, id ∉ ids') (hn : n ≤ S.vars.size) :
    Lays written n S S₂ (ids ++ ids') where
  vars := h.vars.trans h'.vars
  kept id hid := by
    rw [List.mem_append, not_or] at hid
    rw [h'.kept id hid.2, h.kept id hid.1]
  placed id hid := by
    have hle := h.vars.size_le
    rcases List.mem_append.1 hid with hid | hid
    · rw [h'.kept id (hdisjoint id hid)]
      rcases h.placed id hid with hsimple | ⟨t, hlo, hlt, hread, hunique⟩
      · exact .inl hsimple
      · refine .inr ⟨t, hlo, Nat.lt_of_lt_of_le hlt h'.vars.size_le, hread, fun id' hid' heq => ?_⟩
        rcases List.mem_append.1 hid' with hid' | hid'
        · rw [h'.kept id' (hdisjoint id' hid')] at heq
          exact hunique id' hid' heq
        · -- the later variables stand for something older or newer
          rcases h'.placed id' hid' with ⟨-, ⟨c, hc⟩ | ⟨t', ht', hread'⟩⟩ | ⟨t', hlo', -, hread', -⟩
          · rw [hc] at heq
            cases heq
          · rw [hread'] at heq
            cases heq
            omega
          · rw [hread'] at heq
            cases heq
            omega
    · rcases h'.placed id hid with hsimple | ⟨t, hlo, hlt, hread, hunique⟩
      · exact .inl hsimple
      · refine .inr ⟨t, hle.trans hlo, hlt, hread, fun id' hid' heq => ?_⟩
        by_cases hmem : id' ∈ ids'
        · exact hunique id' hmem heq
        · have hid' : id' ∈ ids := (List.mem_append.1 hid').resolve_right hmem
          rw [h'.kept id' hmem] at heq
          rcases h.placed id' hid' with ⟨-, ⟨c, hc⟩ | ⟨t', ht', hread'⟩⟩ | ⟨t', -, hlt', hread', -⟩
          · rw [hc] at heq
            cases heq
          · rw [hread'] at heq
            cases heq
            omega
          · rw [hread'] at heq
            cases heq
            omega

/-- Bound variables stand for constants and variables. -/
lemma isSimple (h : Lays written n S S₁ ids) (hn : n ≤ S.vars.size) (hid : id ∈ ids) :
    (S₁.readVar id).IsSimple S₁.vars.size := by
  rcases h.placed id hid with ⟨-, hsimple⟩ | ⟨t, -, hlt, hread, -⟩
  · exact hsimple.mono (hn.trans h.vars.size_le)
  · exact .inr ⟨t, hlt, hread⟩

/-- Variables that are stored into stand for new locals of their own. -/
lemma owns (h : Lays written n S S₁ ids) {k : Nat} (hall : ∀ id : VarId, id.index < k → id ∈ ids)
    (hid : id.index < k) (hwritten : written id = true) : S₁.Owns S.vars.size k id := by
  rcases h.placed id (hall id hid) with ⟨hnot, -⟩ | ⟨t, hlo, -, hread, hunique⟩
  · rw [hwritten] at hnot
    cases hnot
  · exact ⟨t, hlo, hread, fun id' hid' heq => hunique id' (hall id' hid') heq⟩

end Lays

/-! ## Passing arguments -/

/-- The bindings of a scope are not seen by what is emitted. -/
lemma Emits.rebind {lo : Nat} {S S' : Scope} {D : List Stmt} (h : Emits lo S S' D)
    (bindings : KeyMap VarId Expr) :
    Emits lo { S with bindings := bindings } { S' with bindings := bindings } D :=
  { h with bindings := rfl }

/-- The arguments were passed for the parameters: what the parameters stand for, after the emitted
statements, has the values of the arguments. -/
structure Passes (m : Machine V H X) (written : VarId → Bool) (n : Nat) (S S' : Scope)
    (D : List Stmt) (params : List VarId) (args : List Expr) : Prop where
  lays : Lays written n S S' params
  emits : Emits S.vars.size S { S' with bindings := S.bindings } D
  noReturn : Stmt.blockContainsReturn D = false
  values_eq : ∀ τ : Env V, m.values τ args =
    m.runBlock D τ >>= fun τ' => m.values τ' (params.map S'.readVar)

namespace Passes

variable {m : Machine V H X} {written : VarId → Bool} {n : Nat} {S S₁ S₂ : Scope}
  {D D₁ D₂ : List Stmt} {params : List VarId} {args : List Expr} {param : VarId} {arg : Expr}

lemma nil (S : Scope) : Passes m written n S S [] [] [] where
  lays := .nil S
  emits := .silent rfl rfl rfl
  noReturn := rfl
  values_eq τ := by simp

/-- Arguments are passed one after the other. -/
lemma cons (h : Passes m written n S S₁ D₁ [param] [arg])
    (h' : Passes m written n S₁ S₂ D₂ params args) (hparam : param ∉ params) (hn : n ≤ S.vars.size)
    (hargs : ∀ a ∈ args, a.allNodes (plain n) = true) :
    Passes m written n S S₂ (D₁ ++ D₂) (param :: params) (arg :: args) where
  lays := h.lays.append h'.lays (fun id hid => by rwa [List.mem_singleton.1 hid]) hn
  emits := h.emits.trans (h'.emits.rebind S.bindings) h.lays.vars.size_le
  noReturn := by
    rw [Stmt.blockContainsReturn_append, h.noReturn, h'.noReturn]
    rfl
  values_eq τ := by
    have hfirst := h.values_eq τ
    have hsimple := h.lays.isSimple hn (List.mem_singleton_self param)
    have hvalue : m.value τ arg = m.runBlock D₁ τ >>= fun τ' => m.value τ' (S₁.readVar param) := by
      have hhead := congrArg (fun f => f >>= fun vs => pure (vs.headD (m.constant .null))) hfirst
      simpa [Machine.values_singleton] using hhead
    rw [Machine.values_cons, hvalue, Machine.runBlock_append h.noReturn, bind_assoc, bind_assoc]
    funext heap
    refine bind_congr_of_ok fun τ₁ heap₁ hrun => congrFun ?_ heap₁
    -- the later arguments do not see what the first one was assigned to
    have hrest : m.values τ args = m.values τ₁ args :=
      Machine.values_congr_of_plain hargs fun id hid =>
        (Machine.runBlock_frame hrun (h.emits.unassigned (.inl (hid.trans_le hn)))).symm
    obtain ⟨v, hv⟩ := hsimple.exists_value (m := m) τ₁
    rw [hv, pure_bind, hrest, h'.values_eq τ₁, bind_assoc]
    funext heap₂
    refine bind_congr_of_ok fun τ₂ heap₃ hrun₂ => ?_
    have hv₂ : m.value τ₂ (S₂.readVar param) = pure v := by
      rw [h'.lays.kept param hparam, ← hv]
      exact Machine.value_congr_of_plain hsimple.allNodes_plain fun id hid =>
        Machine.runBlock_frame hrun₂ (h'.emits.unassigned (.inl hid))
    rw [List.map_cons, Machine.values_cons, hv₂, pure_bind]

/-- A parameter that is not stored into stands for its argument. -/
lemma direct (hwritten : written param = false) (harg : arg.IsSimple n) :
    Passes m written n S (S.bound param arg) [] [param] [arg] where
  lays := .simple hwritten harg
  emits := .silent rfl rfl rfl
  noReturn := rfl
  values_eq τ := by
    rw [Machine.runBlock_nil, pure_bind, List.map_singleton, Scope.readVar_bound, if_pos rfl]

/-- A parameter stands for a new local to which its argument is assigned. -/
lemma stored {t : VarTable} (hvars : S.vars.ExtendedTo t) (hsize : S.vars.size < t.size)
    (hS : S₁.vars = t) (hbuffer : S₁.buffer = S.buffer)
    (hbindings : S₁.bindings = (S.bound param (.readVar S.vars.nextId)).bindings)
    (hemits : Emits S.vars.size S₁ S₂ [.assign (.var S.vars.nextId) arg]) :
    Passes m written n S S₂ [.assign (.var S.vars.nextId) arg] [param] [arg] where
  lays := by
    refine .fresh (hvars.trans (hS ▸ hemits.vars)) ?_ rfl (hemits.bindings.trans hbindings)
    exact hsize.trans_le (hS ▸ hemits.vars.size_le)
  emits := by
    have hdeclared : Emits S.vars.size S { S₁ with bindings := S.bindings } [] := {
      bindings := rfl
      buffer := by simp [hbuffer]
      nothing := fun _ => rfl
      vars := hS ▸ hvars
      assigned := fun id hid => by cases hid
      nodes := rfl }
    exact hdeclared.trans (hemits.rebind S.bindings) le_rfl
  noReturn := rfl
  values_eq τ := by
    have hread : S₂.readVar param = .readVar S.vars.nextId := by
      rw [Scope.readVar_congr (hemits.bindings.trans hbindings), Scope.readVar_bound, if_pos rfl]
    have hrun : m.runBlock [.assign (.var S.vars.nextId) arg] τ =
        m.value τ arg >>= fun v => pure (Function.update τ S.vars.nextId v) := by
      rw [Machine.runBlock, Machine.execBlock_singleton, Machine.exec]
      simp
    rw [List.map_singleton, hread, hrun]
    simp [Machine.values_singleton, Machine.value_readVar]

end Passes

/-- A parameter that is given a new local. -/
lemma ScopeM.freshenArgument_cases (S : Scope) (param : VarId) (type : TypeRef) (flags : Flags) :
    ∃ S₁, freshenArgument param type flags S = .ok S.vars.nextId S₁ ∧ S₁.buffer = S.buffer ∧
      S₁.vars = S.vars.declareFresh type (flags.union { init := true }) ∧
      S₁.bindings = (S.bound param (.readVar S.vars.nextId)).bindings :=
  ⟨_, rfl, rfl, rfl, rfl⟩

/-- Passing an argument for a declared parameter. -/
lemma Pass.passArgument_eq {callee : MethodBody} {param : VarId} {v : Variable}
    (hv : callee.vars.get? param = some v) (effects : List Effects) (values : List Bool) (i : Nat)
    (arg : Expr) :
    passArgument callee effects values i param arg =
      if isDirect callee param v effects values i then ScopeM.bindVar param arg
      else ScopeM.freshenArgument param v.type v.flags >>= fun fresh =>
        ScopeM.emit (.assign (.var fresh) arg) := by
  rw [passArgument, VarTable.get, hv]
  rfl

section Pass

variable {m : Machine V H X} {n : Nat} {callee : MethodBody} {S : Scope} (effects : List Effects)
  (values : List Bool)

/-- An argument is passed, directly or through a new local. -/
lemma exists_passArgument {i : Nat} {param : VarId} {arg : Expr}
    (hparam : ∃ v, callee.vars.get? param = some v) (hbuffer : S.hasBuffer = true)
    (hn : n ≤ S.vars.size) (harg : arg.allNodes (plain n) = true)
    (hvalue : values.getD i false = true → arg.IsSimple n) :
    ∃ S' D, Pass.passArgument callee effects values i param arg S = .ok () S' ∧
      Passes m (fun id => Stmt.blockAssigns id callee.stmts) n S S' D [param] [arg] := by
  obtain ⟨declared, hdeclared⟩ := hparam
  rw [Pass.passArgument_eq hdeclared]
  split
  · rename_i hdirect
    simp only [Pass.isDirect, Bool.and_eq_true, Bool.not_eq_true'] at hdirect
    exact ⟨S.bound param arg, [], rfl, .direct hdirect.1.2 (hvalue hdirect.1.1.1)⟩
  · have hvars : S.vars.ExtendedTo
        (S.vars.declareFresh declared.type (declared.flags.union { init := true })) :=
      .declareLocal _ _ _ _
    have hsize : S.vars.size <
        (S.vars.declareFresh declared.type (declared.flags.union { init := true })).size := by
      simp [VarTable.declareFresh, VarTable.declareLocal, VarTable.push, VarTable.size]
    obtain ⟨S₁, hrun, hbuffer₁, hvars₁, hbindings⟩ :=
      ScopeM.freshenArgument_cases S param declared.type declared.flags
    have hnodes : (Stmt.assign (.var S.vars.nextId) arg).allNodes (plain S₁.vars.size) = true := by
      rw [Stmt.allNodes, Bool.and_eq_true, hvars₁]
      exact ⟨Expr.IsSimple.allNodes_plain (.inr ⟨_, hsize, rfl⟩),
        Expr.allNodes_mono (fun _ => plain_mono (hn.trans hvars.size_le)) harg⟩
    obtain ⟨S₂, hemit, hemits⟩ := ScopeM.exists_emit S.vars.size
      (by rw [Scope.hasBuffer, hbuffer₁]; exact hbuffer) hnodes fun id hid => by
        obtain rfl : S.vars.nextId = id := by simpa [Stmt.assigns] using hid
        exact le_rfl
    refine ⟨S₂, _, ?_, .stored hvars hsize hvars₁ hbuffer₁ hbindings hemits⟩
    rw [bind_of_ok hrun, hemit]

/-- All arguments are passed. -/
lemma exists_passArguments {params : List VarId} {args : List Expr}
    (hlength : params.length = args.length) (hnodup : params.Nodup)
    (hparams : ∀ p ∈ params, ∃ v, callee.vars.get? p = some v) (hbuffer : S.hasBuffer = true)
    (hn : n ≤ S.vars.size) (hargs : ∀ a ∈ args, a.allNodes (plain n) = true) {i : Nat}
    (hvalues : ∀ j a, args[j]? = some a → values.getD (i + j) false = true → a.IsSimple n) :
    ∃ S' D, Pass.passArguments callee effects values i (params.zip args) S = .ok () S' ∧
      Passes m (fun id => Stmt.blockAssigns id callee.stmts) n S S' D params args := by
  induction params generalizing args i S with
  | nil =>
    obtain rfl : args = [] := List.eq_nil_of_length_eq_zero hlength.symm
    exact ⟨S, [], rfl, .nil S⟩
  | cons p params ih =>
    obtain ⟨a, args, rfl⟩ := List.exists_cons_of_length_eq_add_one hlength.symm
    obtain ⟨hp, hnodup⟩ := List.nodup_cons.1 hnodup
    obtain ⟨S₁, D₁, hrun, hpasses⟩ := exists_passArgument (m := m) effects values
      (hparams p (by simp)) hbuffer hn (hargs a (by simp)) (by simpa using hvalues 0 a rfl)
    have hbuffer₁ : S₁.hasBuffer = true := hpasses.emits.hasBuffer.trans hbuffer
    have hrest : ∀ b ∈ args, b.allNodes (plain n) = true := fun b hb => hargs b (by simp [hb])
    obtain ⟨S₂, D₂, hrun₂, hpasses₂⟩ := ih (by simpa using hlength) hnodup
      (fun q hq => hparams q (by simp [hq])) hbuffer₁ (hn.trans hpasses.lays.vars.size_le) hrest
      (i := i + 1) fun j b hb hj =>
        hvalues (j + 1) b hb (by rwa [Nat.add_assoc, Nat.add_comm 1 j] at hj)
    refine ⟨S₂, D₁ ++ D₂, ?_, hpasses.cons hpasses₂ hp hn hrest⟩
    rw [List.zip_cons_cons, Pass.passArguments, bind_of_ok hrun, hrun₂]

end Pass

/-! ## Locals -/

namespace ScopeM

/-- A declared local that is given a new one. -/
lemma freshenLocal_cases {callee : VarTable} {id : VarId} {v : Variable}
    (hv : callee.get? id = some v) (S : Scope) :
    ∃ S₁, freshenLocal callee id S = .ok () S₁ ∧ S₁.buffer = S.buffer ∧
      S₁.vars = S.vars.declareLocal (v.name ++ toString S.vars.size) v.type v.flags ∧
      S₁.bindings = (S.bound id (.readVar S.vars.nextId)).bindings := by
  rw [freshenLocal, VarTable.get, hv]
  exact ⟨_, rfl, rfl, rfl, rfl⟩

/-- After the locals were renamed, all that happens is that this is logged. -/
lemma freshenLocals_cases {callee : VarTable} {S S₁ : Scope}
    (hrun : callee.locals.forM (freshenLocal callee) S = .ok () S₁) :
    ∃ S₂, freshenLocals callee S = .ok () S₂ ∧ S₂.buffer = S₁.buffer ∧ S₂.vars = S₁.vars ∧
      S₂.bindings = S₁.bindings := by
  rw [freshenLocals, bind_of_ok hrun]
  split
  · exact ⟨_, rfl, rfl, rfl, rfl⟩
  · exact ⟨_, rfl, rfl, rfl, rfl⟩

end ScopeM

/-- The listed variables stand for new locals of the types that the callee declares. -/
def StandForLocals (callee : VarTable) (S S' : Scope) (ids : List VarId) : Prop :=
  ∀ id ∈ ids, ∃ (v w : Variable) (t : VarId), callee.get? id = some v ∧
    S'.readVar id = .readVar t ∧ S.vars.size ≤ t.index ∧ S'.vars.get? t = some w ∧ w.type = v.type

section Locals

variable (written : VarId → Bool) {n : Nat} (callee : VarTable) {S : Scope}

/-- A local of the callee is given a new local. -/
lemma exists_freshenLocal {id : VarId} (hid : ∃ v, callee.get? id = some v) :
    ∃ S', ScopeM.freshenLocal callee id S = .ok () S' ∧ Lays written n S S' [id] ∧
      S'.buffer = S.buffer ∧ StandForLocals callee S S' [id] := by
  obtain ⟨declared, hdeclared⟩ := hid
  obtain ⟨S', hrun, hbuffer, hvars, hbindings⟩ := ScopeM.freshenLocal_cases hdeclared S
  have hread : S'.readVar id = .readVar S.vars.nextId := by
    rw [Scope.readVar_congr hbindings, Scope.readVar_bound, if_pos rfl]
  refine ⟨S', hrun, .fresh (.declareLocal _ _ _ _) ?_ hvars hbindings, hbuffer, fun id' hid' => ?_⟩
  · simp [VarTable.declareLocal, VarTable.push, VarTable.size]
  · obtain rfl := List.mem_singleton.1 hid'
    refine ⟨declared, ⟨declared.name ++ toString S.vars.size, declared.type, .localVar,
      declared.flags⟩, S.vars.nextId, hdeclared, hread, le_rfl, ?_, rfl⟩
    rw [hvars]
    exact List.getElem?_concat_length

/-- Some locals of the callee are given new locals, one after the other. -/
lemma exists_forM_freshenLocal {ids : List VarId} (hnodup : ids.Nodup)
    (hids : ∀ id ∈ ids, ∃ v, callee.get? id = some v) (hn : n ≤ S.vars.size) :
    ∃ S', ids.forM (ScopeM.freshenLocal callee) S = .ok () S' ∧ Lays written n S S' ids ∧
      S'.buffer = S.buffer ∧ StandForLocals callee S S' ids := by
  induction ids generalizing S with
  | nil => exact ⟨S, rfl, .nil S, rfl, fun id hid => by cases hid⟩
  | cons id ids ih =>
    obtain ⟨hid, hnodup⟩ := List.nodup_cons.1 hnodup
    obtain ⟨S₁, hrun, hlays, hbuffer, hlocal⟩ :=
      exists_freshenLocal written callee (n := n) (S := S) (hids id (by simp))
    obtain ⟨S₂, hrun₂, hlays₂, hbuffer₂, hlocal₂⟩ := ih hnodup
      (fun id' hid' => hids id' (by simp [hid'])) (hn.trans hlays.vars.size_le)
    refine ⟨S₂, ?_, hlays.append hlays₂ (fun id' hid' => by rwa [List.mem_singleton.1 hid']) hn,
      hbuffer₂.trans hbuffer, fun id' hid' => ?_⟩
    · change (ScopeM.freshenLocal callee id >>= fun _ => ids.forM (ScopeM.freshenLocal callee)) S = _
      rw [bind_of_ok hrun, hrun₂]
    · rcases List.mem_cons.1 hid' with rfl | hid'
      · obtain ⟨v, w, t, hv, hread, hlo, hw, htype⟩ := hlocal id' (by simp)
        refine ⟨v, w, t, hv, by rw [hlays₂.kept id' hid, hread], hlo, ?_, htype⟩
        rw [hlays₂.vars.get?_eq (List.getElem?_eq_some_iff.1 hw).1, hw]
      · obtain ⟨v, w, t, hv, hread, hlo, hw, htype⟩ := hlocal₂ id' hid'
        exact ⟨v, w, t, hv, hread, hlays.vars.size_le.trans hlo, hw, htype⟩

/-- All locals of the callee are given new locals. -/
lemma exists_freshenLocals (hn : n ≤ S.vars.size) :
    ∃ S', ScopeM.freshenLocals callee S = .ok () S' ∧ Lays written n S S' callee.locals ∧
      S'.buffer = S.buffer ∧ StandForLocals callee S S' callee.locals := by
  have hnodup : callee.locals.Nodup := callee.nodup_idsOf .localVar
  obtain ⟨S₁, hrun, hlays, hbuffer, hlocal⟩ := exists_forM_freshenLocal written callee hnodup
    (fun id hid => (VarTable.mem_idsOf.1 hid).imp fun _ h => h.1) hn
  obtain ⟨S₂, hrun₂, hbuffer₂, hvars, hbindings⟩ := ScopeM.freshenLocals_cases hrun
  have hreads := fun id => Scope.readVar_congr hbindings id
  refine ⟨S₂, hrun₂, ⟨hvars ▸ hlays.vars, ?_, ?_⟩, hbuffer₂.trans hbuffer, ?_⟩
  · simpa only [hreads] using hlays.kept
  · simpa only [hreads, hvars] using hlays.placed
  · simpa only [StandForLocals, hreads, hvars] using hlocal

end Locals

end Inliner
