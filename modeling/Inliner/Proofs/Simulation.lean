import Inliner.Proofs.MachineStore
import Inliner.Proofs.Translation

/-!
# Simplified statements keep their meaning

Executing the statements that were emitted for a block is related to executing the block: both raise
the same exception or both end, with the same heap and the same returned value, and if nothing was
returned, what the variables stand for has the values that they have (`Transcribes`).

An expression that is evaluated by a statement has the same value before and after it was
simplified, so one lemma covers every statement that evaluates some expressions and then does
something with the values (`Transcribes.of_values`). An assignment goes to the variable that the
assigned one stands for, which no other stands for (`Machine.Stands.update`). A statement that only
evaluates an expression with pure effects may be dropped (`Transcribes.dropped`).
-/

namespace Inliner

variable {V H X : Type}

/-! ## Related computations -/

/-- Both computations return, with related results, or both raise the same exception; the states
that they leave are equal. -/
def Simulates {S A B : Type} (R : A → B → Prop) (x : EStateM X S A) (y : EStateM X S B) : Prop :=
  ∀ s, (∃ a b s', x s = .ok a s' ∧ y s = .ok b s' ∧ R a b) ∨
    ∃ e s', x s = .error e s' ∧ y s = .error e s'

namespace Simulates

variable {S A B C D : Type} {R R' : A → B → Prop} {x : EStateM X S A} {y : EStateM X S B}

/-- Related results. -/
lemma pure {a : A} {b : B} (h : R a b) :
    Simulates R (pure a : EStateM X S A) (pure b : EStateM X S B) :=
  fun s => .inl ⟨a, b, s, rfl, rfl, h⟩

/-- The same exception. -/
lemma throw (e : X) : Simulates R (throw e : EStateM X S A) (throw e : EStateM X S B) :=
  fun s => .inr ⟨e, s, rfl, rfl⟩

/-- A computation simulates itself. -/
lemma refl (x : EStateM X S A) : Simulates Eq x x := by
  intro s
  cases hx : x s with
  | ok a s' => exact .inl ⟨a, a, s', rfl, rfl, rfl⟩
  | error e s' => exact .inr ⟨e, s', rfl, rfl⟩

/-- Results may be related more loosely. -/
lemma mono (h : Simulates R x y) (hR : ∀ a b, R a b → R' a b) : Simulates R' x y := by
  intro s
  rcases h s with ⟨a, b, s', hx, hy, hab⟩ | herror
  · exact .inl ⟨a, b, s', hx, hy, hR a b hab⟩
  · exact .inr herror

/-- One computation after the other. -/
lemma bind {Q : C → D → Prop} {k : A → EStateM X S C} {l : B → EStateM X S D}
    (h : Simulates R x y) (hk : ∀ a b, R a b → Simulates Q (k a) (l b)) :
    Simulates Q (x >>= k) (y >>= l) := by
  intro s
  rcases h s with ⟨a, b, s', hx, hy, hab⟩ | ⟨e, s', hx, hy⟩
  · rw [bind_of_ok hx, bind_of_ok hy]
    exact hk a b hab s'
  · rw [bind_of_error hx, bind_of_error hy]
    exact .inr ⟨e, s', rfl, rfl⟩

/-- What follows related results in the same way is the same. -/
lemma bind_eq {k : A → EStateM X S C} {l : B → EStateM X S C} (h : Simulates R x y)
    (hk : ∀ a b, R a b → k a = l b) : (x >>= k) = (y >>= l) := by
  funext s
  rcases h s with ⟨a, b, s', hx, hy, hab⟩ | ⟨e, s', hx, hy⟩
  · rw [bind_of_ok hx, bind_of_ok hy, hk a b hab]
  · rw [bind_of_error hx, bind_of_error hy]

/-- A computation is related to what a function makes of its results. -/
lemma of_map_eq {f : A → B} (h : (x >>= fun a => Pure.pure (f a)) = y) :
    Simulates (fun a b => f a = b) x y := by
  intro s
  rw [← h]
  cases hx : x s with
  | ok a s' => exact .inl ⟨a, f a, s', rfl, by rw [bind_of_ok hx]; rfl, rfl⟩
  | error e s' => exact .inr ⟨e, s', rfl, bind_of_error hx⟩

/-- Whatever is known of the results on the left may be used. -/
lemma and_left {P : A → Prop} (h : Simulates R x y) (hP : ∀ s a s', x s = .ok a s' → P a) :
    Simulates (fun a b => R a b ∧ P a) x y := by
  intro s
  rcases h s with ⟨a, b, s', hx, hy, hab⟩ | herror
  · exact .inl ⟨a, b, s', hx, hy, hab, hP s a s' hx⟩
  · exact .inr herror

end Simulates

/-! ## Expressions with the environment that they leave -/

/-- Evaluating translated expressions gives the same values, and leaves an environment in which the
variables still stand for what they did and later locals are untouched. -/
lemma Translates.simulates {m : Machine V H X} {k : Nat} {S S₁ : Scope} {D : List Stmt}
    {es es' : List Expr} {τ σ : Env V} {t : VarTable} (h : Translates m k S S₁ D es es')
    (ht : S₁.vars.ExtendedTo t) (hbinds : S.Binds k) (hstands : m.Stands S k τ σ)
    (hfresh : m.Fresh S.vars t τ) :
    Simulates (fun p vs => p.2 = vs ∧ m.Stands S₁ k p.1 σ ∧ m.Fresh S₁.vars t p.1)
      (m.runBlock D τ >>= fun τ' => m.values τ' es' >>= fun vs => pure (τ', vs))
      (m.values σ es) := by
  refine (Simulates.of_map_eq (f := Prod.snd) ?_).and_left fun s p s' hp => ?_
  · rw [← h.values_eq hstands (hfresh.left ht)]
    simp
  · obtain ⟨τ', s₁, hrun, hp⟩ := exists_of_bind_eq_ok hp
    obtain ⟨vs, s₂, -, hp⟩ := exists_of_bind_eq_ok hp
    cases hp
    exact ⟨h.emits.stands hrun hbinds hstands, h.emits.fresh hrun hfresh⟩

namespace Machine

variable {m : Machine V H X} {k : Nat} {S S' : Scope} {τ σ : Env V}

/-- Executions end with the same returned value, and if none was returned, the variables stand for
what they did. -/
def Ends (m : Machine V H X) (S : Scope) (k : Nat) (p q : Env V × Option V) : Prop :=
  p.2 = q.2 ∧ (q.2 = none → m.Stands S k p.1 q.1)

/-- What variables stand for depends on the bindings only. -/
lemma Stands.of_bindings (h : m.Stands S k τ σ) (hS : S'.bindings = S.bindings) :
    m.Stands S' k τ σ := by
  intro id hid
  rw [Scope.readVar_congr hS]
  exact h id hid

/-- Assigning what a variable stands for, if no other stands for it, is assigning the variable. -/
lemma Stands.update {id t : VarId} (h : m.Stands S k τ σ) (hbinds : S.Binds k)
    (hread : S.readVar id = .readVar t)
    (hunique : ∀ id' : VarId, id'.index < k → S.readVar id' = .readVar t → id' = id) (v : V) :
    m.Stands S k (Function.update τ t v) (Function.update σ id v) := by
  intro id' hid'
  by_cases hsame : id' = id
  · rw [hsame, hread, value_readVar, Function.update_self, Function.update_self]
  · have hvalue := h id' hid'
    rw [Function.update_of_ne hsame, ← hvalue]
    rcases hbinds id' hid' with ⟨c, hc⟩ | ⟨t', -, ht'⟩
    · rw [hc]
      exact value_congr_of_plain (n := 0) (Expr.IsSimple.allNodes_plain (.inl ⟨c, rfl⟩)) fun id'' hlt =>
        absurd hlt (Nat.not_lt_zero _)
    · have hne : t' ≠ t := by
        rintro rfl
        exact hsame (hunique id' hid' ht')
      rw [ht', value_readVar, value_readVar, Function.update_of_ne hne]

/-! ## The meaning of statements -/

/-- It does not matter which expressions the operands were. -/
lemma store_withParts (c : Cell) (es : List Expr) (vs : List V) (v : V) :
    m.store (c.withParts es) vs v = m.store c vs v := by
  rcases vs with _ | ⟨a, _ | ⟨b, _ | ⟨c', rest⟩⟩⟩ <;>
  · unfold Cell.withParts
    split <;> rfl

/-- An assignment to a cell that is no variable evaluates the operands and the value, and stores. -/
lemma exec_assign {c : Cell} (hc : ∀ id, c ≠ .var id) (e : Expr) (env : Env V) :
    m.exec (.assign c e) env = m.values env (c.parts ++ [e]) >>= fun vs =>
      m.store c vs.dropLast (vs.getLastD (m.constant .null)) >>= fun _ => pure (env, none) := by
  rw [exec]
  · simp [Evaluator.evalAll_append, values_singleton]
  · exact fun id h => hc id h

/-- An evaluation leaves the environment alone. -/
lemma exec_eval (e : Expr) (env : Env V) :
    m.exec (.eval e) env = m.values env [e] >>= fun _ => pure (env, none) := by
  simp [exec, values_singleton]

/-- A branch executes one of its blocks. -/
lemma exec_branch (cond : Expr) (onTrue onFalse : List Stmt) (env : Env V) :
    m.exec (.branch cond onTrue onFalse) env = m.values env [cond] >>= fun vs =>
      if m.truth (vs.headD (m.constant .null)) then m.execBlock onTrue env
      else m.execBlock onFalse env := by
  rw [exec, values_singleton, bind_assoc]
  rfl

/-- Executing what was emitted for some expressions and then a statement that evaluates them is
related to executing a statement that evaluates the original ones, if what is done with the values
is. -/
lemma simulates_exec {S₁ : Scope} {t : VarTable} {D : List Stmt} {s s' : Stmt} {es es' : List Expr}
    {f g : Env V → List V → EStateM X H (Env V × Option V)} (h : Translates m k S S₁ D es es')
    (ht : S₁.vars.ExtendedTo t) (hexec' : ∀ τ, m.exec s' τ = m.values τ es' >>= f τ)
    (hexec : ∀ σ, m.exec s σ = m.values σ es >>= g σ)
    (hfg : ∀ {τ σ vs}, m.Stands S₁ k τ σ → m.Fresh S₁.vars t τ →
      Simulates (m.Ends S k) (f τ vs) (g σ vs))
    (hbinds : S.Binds k) (hstands : m.Stands S k τ σ) (hfresh : m.Fresh S.vars t τ) :
    Simulates (m.Ends S k) (m.execBlock (D ++ [s']) τ) (m.execBlock [s] σ) := by
  have hleft : m.execBlock (D ++ [s']) τ = (m.runBlock D τ >>= fun τ' =>
      m.values τ' es' >>= fun vs => pure (τ', vs)) >>= fun p => f p.1 p.2 := by
    rw [execBlock_append_of_noReturn h.noReturn]
    simp [hexec']
  rw [hleft, execBlock_singleton, hexec]
  refine (h.simulates ht hbinds hstands hfresh).bind fun p vs ⟨hp, hstands₁, hfresh₁⟩ => ?_
  rw [hp]
  exact hfg hstands₁ hfresh₁

end Machine

/-! ## Transcribed statements -/

/-- Simplifying the statements leads from the scope `S` to the scope `S'` and emits `D`. -/
structure Transcribes (m : Machine V H X) (lo k : Nat) (S S' : Scope) (D stmts : List Stmt) :
    Prop where
  emits : Emits lo S S' D
  noReturn : Stmt.blockContainsReturn stmts = false → Stmt.blockContainsReturn D = false
  simulates : ∀ {τ σ : Env V}, m.Stands S k τ σ → m.Fresh S.vars S'.vars τ →
    Simulates (m.Ends S k) (m.execBlock D τ) (m.execBlock stmts σ)

namespace Transcribes

variable {m : Machine V H X} {lo k : Nat} {S S₁ S₂ : Scope} {D D₁ D₂ xs ys : List Stmt}

/-- Nothing is transcribed. -/
lemma nil (S : Scope) : Transcribes m lo k S S [] [] where
  emits := .silent rfl rfl rfl
  noReturn _ := rfl
  simulates hstands _ := by
    rw [Machine.execBlock, Machine.execBlock]
    exact .pure ⟨rfl, fun _ => hstands⟩

/-- Blocks are transcribed one after the other. -/
lemma append (h : Transcribes m lo k S S₁ D₁ xs) (h' : Transcribes m lo k S₁ S₂ D₂ ys) :
    Transcribes m lo k S S₂ (D₁ ++ D₂) (xs ++ ys) where
  emits := h.emits.trans h'.emits le_rfl
  noReturn hreturn := by
    rw [Stmt.blockContainsReturn_append, Bool.or_eq_false_iff] at hreturn ⊢
    exact ⟨h.noReturn hreturn.1, h'.noReturn hreturn.2⟩
  simulates {τ σ} hstands hfresh := by
    have hfirst := (h.simulates hstands (hfresh.left h'.emits.vars)).and_left
      fun s p s' hp => hfresh.right h.emits.vars fun id hid =>
        (Machine.execBlock_frame hp).1 id (h.emits.unassigned (.inr hid))
    rw [Machine.execBlock_append, Machine.execBlock_append]
    refine hfirst.bind fun p q ⟨⟨hresult, hends⟩, hfresh₁⟩ => ?_
    obtain ⟨τ₁, result⟩ := p
    obtain ⟨σ₁, result'⟩ := q
    obtain rfl : result = result' := hresult
    cases result with
    | some v => exact .pure ⟨rfl, fun hnone => by cases hnone⟩
    | none =>
      have hstands₁ := (hends rfl).of_bindings h.emits.bindings
      exact (h'.simulates hstands₁ hfresh₁).mono fun p q ⟨hr, hs⟩ =>
        ⟨hr, fun hnone => (hs hnone).of_bindings h.emits.bindings.symm⟩

/-- Without a `return` in them, blocks that are transcribed run to their ends. -/
lemma simulates_runBlock (h : Transcribes m lo k S S₁ D xs)
    (hreturn : Stmt.blockContainsReturn xs = false) {t : VarTable} (ht : S₁.vars.ExtendedTo t)
    {τ σ : Env V} (hstands : m.Stands S k τ σ) (hfresh : m.Fresh S.vars t τ) :
    Simulates (fun τ' σ' => m.Stands S₁ k τ' σ' ∧ m.Fresh S₁.vars t τ') (m.runBlock D τ)
      (m.runBlock xs σ) := by
  have hblocks := (h.simulates hstands (hfresh.left ht)).and_left fun s p s' hp =>
    And.intro ((Machine.execBlock_frame hp).2 (h.noReturn hreturn))
      (hfresh.right h.emits.vars fun id hid =>
        (Machine.execBlock_frame hp).1 id (h.emits.unassigned (.inr hid)))
  refine hblocks.bind fun p q ⟨⟨hresult, hends⟩, hnone, hfresh₁⟩ => .pure ⟨?_, hfresh₁⟩
  exact (hends (hresult.symm.trans hnone)).of_bindings h.emits.bindings

/-- A statement that evaluates some expressions and then does something with their values. -/
lemma of_values {s s' : Stmt} {es es' : List Expr}
    {f g : Env V → List V → EStateM X H (Env V × Option V)} (hbinds : S.Binds k)
    (hlo : lo ≤ S.vars.size) (h : Translates m k S S₁ D es es') (hemits : Emits lo S₁ S₂ [s'])
    (hreturn : s.containsReturn = false → s'.containsReturn = false)
    (hexec' : ∀ τ, m.exec s' τ = m.values τ es' >>= f τ)
    (hexec : ∀ σ, m.exec s σ = m.values σ es >>= g σ)
    (hfg : ∀ {τ σ vs}, m.Stands S₁ k τ σ → m.Fresh S₁.vars S₂.vars τ →
      Simulates (m.Ends S k) (f τ vs) (g σ vs)) : Transcribes m lo k S S₂ (D ++ [s']) [s] where
  emits := (h.emits.weaken hlo).trans hemits le_rfl
  noReturn hs := by
    rw [Stmt.blockContainsReturn_append, h.noReturn]
    simpa [Stmt.blockContainsReturn] using hreturn (by simpa [Stmt.blockContainsReturn] using hs)
  simulates hstands hfresh :=
    Machine.simulates_exec h hemits.vars hexec' hexec hfg hbinds hstands hfresh

/-- An expression with pure effects need not be evaluated. -/
lemma dropped {e e' : Expr} {E : Effects} (hbinds : S.Binds k) (hlo : lo ≤ S.vars.size)
    (h : Translates m k S S₁ D [e] [e']) (hE : e'.effects S₁.vars = .ok E) (hpure : E.isPure = true) :
    Transcribes m lo k S S₁ D [.eval e] where
  emits := h.emits.weaken hlo
  noReturn _ := h.noReturn
  simulates {τ σ} hstands hfresh := by
    have hscope := Expr.allNodes_mono (fun _ => inScope_of_plain) (h.nodes e' (by simp))
    have hskip : ∀ τ' : Env V, m.exec (.eval e') τ' = pure (τ', none) := by
      intro τ'
      funext heap
      obtain ⟨v, hv⟩ := Machine.value_of_isPure hscope hE hpure τ' heap
      rw [Machine.exec, bind_of_ok hv]
    have hleft : m.execBlock D τ = m.execBlock (D ++ [.eval e']) τ := by
      rw [Machine.execBlock_append_of_noReturn h.noReturn,
        Machine.execBlock_of_noReturn h.noReturn]
      simp [hskip]
    rw [hleft]
    exact Machine.simulates_exec h (.refl _) (Machine.exec_eval e') (Machine.exec_eval e)
      (fun hstands₁ _ => .pure ⟨rfl, fun _ => hstands₁.of_bindings h.emits.bindings.symm⟩)
      hbinds hstands hfresh

end Transcribes

/-! ## The walk over statements -/

/-- An assignment to a cell that is neither a variable nor a pointer target: the operands of the
cell and the value are simplified, from left to right. -/
lemma stmt_assign {calls : CallTreatment} {c : Cell} (hc : ∀ id, c ≠ .var id)
    (hpointer : noPointer (.read c) = true) (e : Expr) :
    Pass.stmt calls (.assign c e) = Pass.operands calls (c.parts ++ [e]) false >>= fun es =>
      ScopeM.emit (.assign (c.withParts es.dropLast) (es.getLastD e)) := by
  cases c with
  | var id => exact absurd rfl (hc id)
  | deref pointer => cases hpointer
  | _ => simp [Pass.stmt, Pass.cell, Pass.operands, Cell.parts, Cell.withParts]

/-- Statements are taken out of the buffer. -/
lemma takeStatements_eq {S : Scope} {D : List Stmt} (hbuffer : S.buffer = some D) :
    ScopeM.takeStatements S = .ok D { S with buffer := some [] } := by
  have hget : (get : ScopeM Scope) S = .ok S S := rfl
  rw [ScopeM.takeStatements, bind_of_ok hget, hbuffer]
  rfl

/-- Taking the statements leaves an open buffer open, and a closed one closed. -/
lemma ScopeM.takeStatements_getD (S : Scope) :
    takeStatements S = .ok (S.buffer.getD []) { S with buffer := S.buffer.map fun _ => [] } := by
  cases hbuffer : S.buffer with
  | some stmts => exact takeStatements_eq hbuffer
  | none =>
    have hget : (get : ScopeM Scope) S = .ok S S := rfl
    rw [takeStatements, bind_of_ok hget, hbuffer]
    change EStateM.Result.ok [] S = _
    rw [Option.map_none, Option.getD_none, ← hbuffer]

section Walk

variable {m : Machine V H X} {lo k : Nat} {calls : CallTreatment} {S : Scope}

/-- An assignment to a variable goes to the one that it stands for. -/
lemma walks_assign_var (hcalls : calls.Sound m) {id : VarId} {e : Expr}
    (he : e.allNodes (plain k) = true) (hid : id.index < k) (hbinds : S.Binds k)
    (hbuffer : S.hasBuffer = true) (hlo : lo ≤ S.vars.size) (howns : S.Owns lo k id) :
    ∃ S' D, Pass.stmt calls (.assign (.var id) e) S = .ok () S' ∧
      Transcribes m lo k S S' D [.assign (.var id) e] := by
  obtain ⟨t, hlot, hread, hunique⟩ := howns
  obtain ⟨e', w, S₁, D, hoperand, htranslates, -, -⟩ := (walks_expr hcalls he).operand hbinds false
  have ht : t.index < S.vars.size := by
    rcases hbinds id hid with ⟨c, hc⟩ | ⟨t', ht', hread'⟩
    · rw [hread] at hc
      cases hc
    · rw [hread] at hread'
      cases hread'
      exact ht'
  have hnodes : (Stmt.assign (.var t) e').allNodes (plain S₁.vars.size) = true := by
    rw [Stmt.allNodes, Bool.and_eq_true]
    refine ⟨Expr.IsSimple.allNodes_plain (.inr ⟨t, ?_, rfl⟩), htranslates.nodes e' (by simp)⟩
    exact Nat.lt_of_lt_of_le ht htranslates.emits.vars.size_le
  obtain ⟨S₂, hemit, hemits⟩ := ScopeM.exists_emit lo
    (by rw [htranslates.emits.hasBuffer, hbuffer]) hnodes fun id' hid' => by
      obtain rfl : t = id' := by simpa [Stmt.assigns] using hid'
      exact hlot
  refine ⟨S₂, D ++ [.assign (.var t) e'], ?_, ?_⟩
  · have hcell : Pass.cell calls (.var id) false S = .ok (.var t, false) S := by
      change (ScopeM.ofExcept (S.resolveCell (.var id)) >>= fun c => pure (c, false)) S = _
      rw [Scope.resolveCell_of_readVar hread]
      rfl
    rw [Pass.stmt, bind_of_ok hcell]
    change (Pass.operand (Pass.expr calls e) false >>= fun p => ScopeM.emit (.assign (.var t) p.1)) S = _
    rw [bind_of_ok hoperand, hemit]
  · refine .of_values hbinds hlo htranslates hemits (fun _ => rfl)
      (f := fun τ vs => pure (Function.update τ t (vs.headD (m.constant .null)), none))
      (g := fun σ vs => pure (Function.update σ id (vs.headD (m.constant .null)), none))
      (fun τ => by simp [Machine.exec, Machine.values_singleton])
      (fun σ => by simp [Machine.exec, Machine.values_singleton]) fun hstands _ => ?_
    refine .pure ⟨rfl, fun _ => ?_⟩
    exact (hstands.of_bindings htranslates.emits.bindings.symm).update hbinds hread hunique _

/-- An assignment to a field or an element. -/
lemma walks_assign_cell (hcalls : calls.Sound m) {c : Cell} {e : Expr} (hc : ∀ id, c ≠ .var id)
    (hcell : (Expr.read c).allNodes (plain k) = true) (he : e.allNodes (plain k) = true)
    (hbinds : S.Binds k) (hbuffer : S.hasBuffer = true) (hlo : lo ≤ S.vars.size) :
    ∃ S' D, Pass.stmt calls (.assign c e) S = .ok () S' ∧
      Transcribes m lo k S S' D [.assign c e] := by
  obtain ⟨hself, hparts⟩ := Expr.allNodes_iff.1 hcell
  have hpointer : noPointer (.read c) = true := by
    rw [plain, Bool.and_eq_true] at hself
    exact hself.2
  have hread : (Expr.read c).variableRead? = none := by
    cases c with
    | var id => exact absurd rfl (hc id)
    | _ => rfl
  have hoperands : ∀ a ∈ c.parts ++ [e], Walks m k (Pass.expr calls a) a := by
    intro a ha
    rcases List.mem_append.1 ha with ha | ha
    · exact walks_expr hcalls (hparts a ha)
    · rw [List.mem_singleton.1 ha]
      exact walks_expr hcalls he
  obtain ⟨es', S₁, D, hact, htranslates, -⟩ := exists_operands hoperands hbinds false
  obtain ⟨init, e', rfl⟩ : ∃ init e', es' = init ++ [e'] := by
    rcases List.eq_nil_or_concat es' with rfl | ⟨init, e', rfl⟩
    · have hlength := htranslates.length
      simp at hlength
    · exact ⟨init, e', by simp⟩
  have hlength : init.length = c.parts.length := by simpa using htranslates.length
  have hinit : (c.withParts init).parts = init := Expr.parts_withParts (e := .read c) hlength
  have hc' : ∀ id, c.withParts init ≠ .var id := by
    intro id hid
    have hread' := Expr.variableRead?_withParts (.read c) init
    rw [hread] at hread'
    change (Expr.read (c.withParts init)).variableRead? = none at hread'
    rw [hid] at hread'
    cases hread'
  have hnodes : (Stmt.assign (c.withParts init) e').allNodes (plain S₁.vars.size) = true := by
    rw [Stmt.allNodes, Bool.and_eq_true]
    refine ⟨Expr.allNodes_iff.2 ⟨plain_withParts hread hpointer _ init, ?_⟩,
      htranslates.nodes e' (by simp)⟩
    intro a ha
    exact htranslates.nodes a (List.mem_append_left _ (hinit ▸ ha))
  obtain ⟨S₂, hemit, hemits⟩ := ScopeM.exists_emit lo
    (by rw [htranslates.emits.hasBuffer, hbuffer]) hnodes fun id hid => by
      cases hcell' : c.withParts init with
      | var id' => exact absurd hcell' (hc' id')
      | _ =>
        rw [hcell'] at hid
        cases hid
  refine ⟨S₂, D ++ [.assign (c.withParts init) e'], ?_, ?_⟩
  · rw [stmt_assign hc hpointer, bind_of_ok hact]
    simpa using hemit
  · refine .of_values hbinds hlo htranslates hemits (fun _ => rfl)
      (fun τ => by rw [Machine.exec_assign hc', hinit]) (fun σ => Machine.exec_assign hc e σ)
      fun {τ σ vs} hstands _ => ?_
    rw [Machine.store_withParts]
    refine (Simulates.refl _).bind fun _ _ _ => .pure ⟨rfl, fun _ => ?_⟩
    exact hstands.of_bindings htranslates.emits.bindings.symm

/-- The statements of an arm are emitted into a buffer of their own. -/
lemma exists_arm {stmts : List Stmt} (hbuffer : S.hasBuffer = true)
    (h : ∃ S' D, Pass.block calls stmts
        { S with buffer := some [], effects := .bottom S.vars.frame } = .ok () S' ∧
      Transcribes m lo k { S with buffer := some [], effects := .bottom S.vars.frame } S' D stmts) :
    ∃ S' D S'', (ScopeM.withFreshStatements do
        Pass.block calls stmts
        ScopeM.takeStatements) S = .ok D S' ∧
      Emits lo S S' [] ∧ S''.vars = S'.vars ∧ Transcribes m lo k S S'' D stmts := by
  obtain ⟨S₁, D, hblock, htranscribes⟩ := h
  refine ⟨{ S₁ with buffer := S.buffer, effects := S.effects }, D,
    { S₁ with buffer := S.buffer.map (· ++ D), effects := S.effects }, ?_, ?_, rfl,
    htranscribes.emits.ofNested hbuffer, htranscribes.noReturn, htranscribes.simulates⟩
  · unfold ScopeM.withFreshStatements ScopeM.nested
    simp only [bind_of_ok hblock, takeStatements_eq htranscribes.emits.buffer, List.nil_append]
  · exact {
      bindings := htranscribes.emits.bindings
      buffer := by simp
      nothing := fun _ => rfl
      vars := htranscribes.emits.vars
      assigned := fun id hid => by cases hid
      nodes := rfl }

/-- A branch with its condition translated and its arms transcribed. -/
lemma Transcribes.branch {S₁ S₂ S₃ S₄ S₂' S₃' : Scope} {D Dt Df onTrue onFalse : List Stmt}
    {cond cond' : Expr} (hbinds : S.Binds k) (hlo : lo ≤ S.vars.size)
    (hcond : Translates m k S S₁ D [cond] [cond']) (ht : Transcribes m lo k S₁ S₂' Dt onTrue)
    (hf : Transcribes m lo k S₂ S₃' Df onFalse) (ht' : Emits lo S₁ S₂ []) (hf' : Emits lo S₂ S₃ [])
    (ht'' : S₂'.vars = S₂.vars) (hf'' : S₃'.vars = S₃.vars)
    (hemits : Emits lo S₃ S₄ [.branch cond' Dt Df]) :
    Transcribes m lo k S S₄ (D ++ [.branch cond' Dt Df]) [.branch cond onTrue onFalse] := by
  have hlater : Emits lo S₁ S₄ [.branch cond' Dt Df] :=
    ht'.trans (hf'.trans hemits le_rfl) le_rfl
  refine .of_values hbinds hlo hcond hlater (fun hs => ?_)
    (f := fun τ vs => if m.truth (vs.headD (m.constant .null)) then m.execBlock Dt τ
      else m.execBlock Df τ)
    (g := fun σ vs => if m.truth (vs.headD (m.constant .null)) then m.execBlock onTrue σ
      else m.execBlock onFalse σ)
    (Machine.exec_branch cond' Dt Df) (Machine.exec_branch cond onTrue onFalse)
    fun {τ σ vs} hstands hfresh => ?_
  · simp only [Stmt.containsReturn, Bool.or_eq_false_iff] at hs ⊢
    exact ⟨ht.noReturn hs.1, hf.noReturn hs.2⟩
  · have hback : ∀ {S' : Scope} {p q}, S'.bindings = S.bindings → m.Ends S' k p q → m.Ends S k p q :=
      fun hS hends => ⟨hends.1, fun hnone => (hends.2 hnone).of_bindings hS.symm⟩
    split
    · refine (ht.simulates hstands ?_).mono fun _ _ => hback hcond.emits.bindings
      exact hfresh.left (ht''.symm ▸ (hf'.vars.trans hemits.vars))
    · refine (hf.simulates (hstands.of_bindings ht'.bindings) ?_).mono fun _ _ =>
        hback (ht'.bindings.trans hcond.emits.bindings)
      exact (hfresh.right ht'.vars fun _ _ => rfl).left (hf''.symm ▸ hemits.vars)

/-- A statement that is evaluated for its effects is dropped if it has none. -/
lemma walks_eval (hcalls : calls.Sound m) {e : Expr} (he : e.allNodes (plain k) = true)
    (hbinds : S.Binds k) (hbuffer : S.hasBuffer = true) (hlo : lo ≤ S.vars.size) :
    ∃ S' D, Pass.stmt calls (.eval e) S = .ok () S' ∧ Transcribes m lo k S S' D [.eval e] := by
  obtain ⟨e', S₁, D, hexpr, htranslates⟩ := walks_expr hcalls he S hbinds
  have hnodes := htranslates.nodes e' (by simp)
  obtain ⟨E, hE⟩ := Expr.exists_effects (Expr.allNodes_mono (fun _ => inScope_of_plain) hnodes)
  have hstmt : Pass.stmt calls (.eval e) S =
      (if !E.isPure then ScopeM.emit (.eval e') else pure ()) S₁ := by
    rw [Pass.stmt, bind_of_ok hexpr]
    change (ScopeM.ofExcept (e'.effects S₁.vars) >>= fun effects =>
      if !effects.isPure then ScopeM.emit (.eval e') else pure ()) S₁ = _
    rw [hE]
    rfl
  rw [hstmt]
  cases hpure : E.isPure with
  | true => exact ⟨S₁, D, rfl, .dropped hbinds hlo htranslates hE hpure⟩
  | false =>
    obtain ⟨S₂, hemit, hemits⟩ := ScopeM.exists_emit (s := .eval e') lo
      (by rw [htranslates.emits.hasBuffer, hbuffer]) hnodes fun id hid => by cases hid
    refine ⟨S₂, D ++ [.eval e'], hemit, ?_⟩
    exact .of_values hbinds hlo htranslates hemits (fun _ => rfl) (Machine.exec_eval e')
      (Machine.exec_eval e) fun hstands _ =>
        .pure ⟨rfl, fun _ => hstands.of_bindings htranslates.emits.bindings.symm⟩

/-- A statement that leaves the method, with the value of an expression or an exception made from it,
leaves it with the value of the simplified expression. -/
lemma walks_leaving (hcalls : calls.Sound m) (leave : Expr → Stmt)
    {f : Env V → List V → EStateM X H (Env V × Option V)} {e : Expr}
    (hstmt : Pass.stmt calls (leave e) = Pass.expr calls e >>= fun e' => ScopeM.emit (leave e'))
    (hnodes : ∀ a p, (leave a).allNodes p = a.allNodes p)
    (hassigns : ∀ a id, (leave a).assigns id = false)
    (hreturn : ∀ a, (leave e).containsReturn = false → (leave a).containsReturn = false)
    (hexec : ∀ a env, m.exec (leave a) env = m.values env [a] >>= f env)
    (hf : ∀ τ σ vs, Simulates (m.Ends S k) (f τ vs) (f σ vs))
    (he : e.allNodes (plain k) = true) (hbinds : S.Binds k) (hbuffer : S.hasBuffer = true)
    (hlo : lo ≤ S.vars.size) :
    ∃ S' D, Pass.stmt calls (leave e) S = .ok () S' ∧ Transcribes m lo k S S' D [leave e] := by
  obtain ⟨e', S₁, D, hexpr, htranslates⟩ := walks_expr hcalls he S hbinds
  obtain ⟨S₂, hemit, hemits⟩ := ScopeM.exists_emit (s := leave e') lo
    (by rw [htranslates.emits.hasBuffer, hbuffer])
    (by rw [hnodes]; exact htranslates.nodes e' (by simp))
    fun id hid => by rw [hassigns] at hid; cases hid
  refine ⟨S₂, D ++ [leave e'], by rw [hstmt, bind_of_ok hexpr, hemit], ?_⟩
  exact .of_values hbinds hlo htranslates hemits (hreturn e') (hexec e') (hexec e)
    fun {τ σ vs} _ _ => hf τ σ vs

/-- A statement that returns nothing is kept. -/
lemma walks_ret (hbinds : S.Binds k) (hbuffer : S.hasBuffer = true) (hlo : lo ≤ S.vars.size) :
    ∃ S' D, Pass.stmt calls (.ret none) S = .ok () S' ∧ Transcribes m lo k S S' D [.ret none] := by
  obtain ⟨S₁, hemit, hemits⟩ := ScopeM.exists_emit (s := .ret none) lo hbuffer rfl
    fun id hid => by cases hid
  refine ⟨S₁, [] ++ [.ret none], hemit, ?_⟩
  exact .of_values hbinds hlo (.nil S) hemits id
    (f := fun τ _ => pure (τ, some (m.constant .null)))
    (g := fun σ _ => pure (σ, some (m.constant .null)))
    (fun τ => by simp [Machine.exec]) (fun σ => by simp [Machine.exec])
    fun _ _ => .pure ⟨rfl, fun hnone => by cases hnone⟩

mutual

/-- Every plain statement is simplified, and keeps its meaning. -/
lemma walks_stmt (hcalls : calls.Sound m) {s : Stmt} (hs : s.allNodes (plain k) = true) {S : Scope}
    (hbinds : S.Binds k) (hbuffer : S.hasBuffer = true) (hlo : lo ≤ S.vars.size)
    (howns : ∀ id, s.assigns id = true → S.Owns lo k id) :
    ∃ S' D, Pass.stmt calls s S = .ok () S' ∧ Transcribes m lo k S S' D [s] := by
  cases s with
  | eval e => exact walks_eval hcalls hs hbinds hbuffer hlo
  | assign c e =>
    rw [Stmt.allNodes, Bool.and_eq_true] at hs
    cases hc : c with
    | var id =>
      subst hc
      have hid := (Expr.allNodes_iff.1 hs.1).1
      exact walks_assign_var hcalls hs.2 (by simpa [plain, inScope, noPointer] using hid) hbinds
        hbuffer hlo (howns id (by simp [Stmt.assigns]))
    | _ =>
      rw [← hc]
      exact walks_assign_cell hcalls (fun id hid => by rw [hc] at hid; cases hid) hs.1 hs.2 hbinds
        hbuffer hlo
  | ret value =>
    cases value with
    | none => exact walks_ret hbinds hbuffer hlo
    | some e =>
      exact walks_leaving hcalls (fun a => .ret (some a))
        (f := fun env vs => pure (env, some (vs.headD (m.constant .null)))) (by rw [Pass.stmt])
        (fun _ _ => rfl) (fun _ _ => rfl) (fun _ => id)
        (fun a env => by simp [Machine.exec, Machine.values_singleton])
        (fun _ _ _ => .pure ⟨rfl, fun hnone => by cases hnone⟩) hs hbinds hbuffer hlo
  | raise e =>
    exact walks_leaving hcalls .raise
      (f := fun _ vs => throw (m.exception (vs.headD (m.constant .null)))) (by rw [Pass.stmt])
      (fun _ _ => rfl) (fun _ _ => rfl) (fun _ => id)
      (fun a env => by simp [Machine.exec, Machine.values_singleton]) (fun _ _ _ => .throw _) hs
      hbinds hbuffer hlo
  | branch cond onTrue onFalse =>
    rw [Stmt.allNodes, Bool.and_eq_true, Bool.and_eq_true] at hs
    obtain ⟨cond', S₁, D, hexpr, hcond⟩ := walks_expr hcalls hs.1 S hbinds
    have hbuffer₁ : S₁.hasBuffer = true := by rw [hcond.emits.hasBuffer, hbuffer]
    have hlo₁ := hlo.trans hcond.emits.vars.size_le
    obtain ⟨S₂, Dt, S₂', harm, ht', ht'', ht⟩ := exists_arm hbuffer₁ (walks_block hcalls hs.2.1
      (hcond.emits.binds hbinds) rfl hlo₁
      fun id hid => hcond.emits.owns (howns id (by simp [Stmt.assigns, hid])))
    have hbuffer₂ : S₂.hasBuffer = true := by rw [ht'.hasBuffer, hbuffer₁]
    obtain ⟨S₃, Df, S₃', harm', hf', hf'', hf⟩ := exists_arm hbuffer₂ (walks_block hcalls hs.2.2
      (ht'.binds (hcond.emits.binds hbinds)) rfl (hlo₁.trans ht'.vars.size_le)
      fun id hid => ht'.owns (hcond.emits.owns (howns id (by simp [Stmt.assigns, hid]))))
    have hnodes : (Stmt.branch cond' Dt Df).allNodes (plain S₃.vars.size) = true := by
      rw [Stmt.allNodes, Bool.and_eq_true, Bool.and_eq_true]
      refine ⟨?_, ?_, hf'' ▸ hf.emits.nodes⟩
      · exact Expr.allNodes_mono (fun _ => plain_mono (ht'.vars.trans hf'.vars).size_le)
          (hcond.nodes cond' (by simp))
      · exact Stmt.blockNodes_mono (fun _ => plain_mono hf'.vars.size_le) (ht'' ▸ ht.emits.nodes)
    obtain ⟨S₄, hemit, hemits⟩ := ScopeM.exists_emit lo (by rw [hf'.hasBuffer, hbuffer₂]) hnodes
      fun id hid => by
        rw [Stmt.assigns, Bool.or_eq_true] at hid
        rcases hid with hid | hid
        · exact ht.emits.assigned id hid
        · exact hf.emits.assigned id hid
    refine ⟨S₄, _, ?_, .branch hbinds hlo hcond ht hf ht' hf' ht'' hf'' hemits⟩
    rw [Pass.stmt, bind_of_ok hexpr, bind_of_ok harm, bind_of_ok harm', hemit]

/-- Every plain block is simplified, and keeps its meaning. -/
lemma walks_block (hcalls : calls.Sound m) {stmts : List Stmt}
    (hs : Stmt.blockNodes (plain k) stmts = true) {S : Scope} (hbinds : S.Binds k)
    (hbuffer : S.hasBuffer = true) (hlo : lo ≤ S.vars.size)
    (howns : ∀ id, Stmt.blockAssigns id stmts = true → S.Owns lo k id) :
    ∃ S' D, Pass.block calls stmts S = .ok () S' ∧ Transcribes m lo k S S' D stmts := by
  cases stmts with
  | nil => exact ⟨S, [], rfl, .nil S⟩
  | cons s rest =>
    rw [Stmt.blockNodes, Bool.and_eq_true] at hs
    obtain ⟨S₁, D₁, hstmt, h₁⟩ := walks_stmt hcalls hs.1 hbinds hbuffer hlo
      fun id hid => howns id (by simp [Stmt.blockAssigns, hid])
    obtain ⟨S₂, D₂, hblock, h₂⟩ := walks_block hcalls hs.2 (h₁.emits.binds hbinds)
      (by rw [h₁.emits.hasBuffer, hbuffer]) (hlo.trans h₁.emits.vars.size_le)
      fun id hid => h₁.emits.owns (howns id (by simp [Stmt.blockAssigns, hid]))
    refine ⟨S₂, D₁ ++ D₂, ?_, h₁.append h₂⟩
    rw [Pass.block, bind_of_ok hstmt, hblock]

end

end Walk

end Inliner
